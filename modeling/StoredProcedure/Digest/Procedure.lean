import StoredProcedure.Digest.Sha256
import StoredProcedure.Instruction.Writer
import StoredProcedure.Json.Printer

namespace StoredProcedure.Code

/-- What is hashed starts with the name of the format and a zero byte. -/
def digestMarker : List UInt8 :=
  "tuna.procedure.v1".toUTF8.toList ++ [0]

/-- The bytes that are hashed. -/
def digestMessage (code : Code) : List UInt8 :=
  digestMarker ++ code.toJson.compact.toUTF8.toList

def digest (code : Code) : String :=
  Sha256.hex (Sha256.hash code.digestMessage)

end StoredProcedure.Code
