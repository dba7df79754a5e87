import Mathlib.Data.List.Forall2
import StoredProcedure.Command.Run
import StoredProcedure.Proofs.JsonReading

namespace StoredProcedure

namespace LockMap

end LockMap

namespace Requirements

variable (requirements : Requirements)

end Requirements

namespace Command

variable {p : Program}

variable {content : Except SystemError ByteArray}

end Command

end StoredProcedure
