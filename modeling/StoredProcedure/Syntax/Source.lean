import StoredProcedure.Fault
import StoredProcedure.Syntax.Reader

namespace StoredProcedure.Program

/-- The program of a document, which is none if the text is no JSON text. -/
def ofSource (document : Option Document) : Except Fault Program :=
  match document.bind Program.ofDocument? with
  | none => .error .invalidProgram
  | some p => if p.version = supportedVersion then .ok p else .error (.unsupportedVersion p.version)

/-- The program in a file. -/
def ofBytes (bytes : ByteArray) : Except Fault Program :=
  ofSource (Document.ofBytes? bytes)

end StoredProcedure.Program
