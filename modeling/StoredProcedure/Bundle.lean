import StoredProcedure.Code.Statement
import StoredProcedure.Digest.Procedure
import StoredProcedure.Syntax.Writer

namespace StoredProcedure

/-- The procedures of a program. -/
structure Bundle where
  procedures : NameMap Code

namespace Program

/-- Compiles one function of a lowered program. -/
def compileFunction (name : String) (f : Function) : Except Failure Code :=
  match f.compile with
  | .ok code => .ok code
  | .error fault => .error ((Failure.ofFault fault).inFunction name)

/-- Compiles all functions of a lowered program. -/
def compileLowered (p : Program) : Except Failure Bundle := do
  return ⟨← p.functions.traverse compileFunction⟩

/-- Lowers and compiles all functions. -/
def compile (p : Program) : Except Failure Bundle := do
  (← p.lower).compileLowered

end Program

namespace Bundle

/-- The version of bundles that are written. -/
def version : String := "tuna.ops@0.1.0"

def digests (b : Bundle) : NameMap String :=
  b.procedures.map fun _ code => code.digest

/-- The procedures and their digests. -/
def members (b : Bundle) : List (String × Json) :=
  [("procedures", b.procedures.toJson Code.toJson), ("digests", b.digests.toJson .string)]

def toJson (b : Bundle) : Json :=
  .object (("schema_version", .string version) :: b.members)

end Bundle

end StoredProcedure
