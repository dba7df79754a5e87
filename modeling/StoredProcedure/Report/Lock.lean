import StoredProcedure.Analysis.Program
import StoredProcedure.Report.Diagnostic

namespace StoredProcedure

namespace LockMap

/-- How many locks of a kind there are. -/
def count (locks : LockMap) (kind : LockKind) : Nat :=
  (locks.entries.filter fun entry => entry.2 = kind).length

/-- The numbers of locks for writing and for reading; a number that is zero is not mentioned. -/
def describe (locks : LockMap) : String :=
  let writes := locks.count .write
  let reads := locks.count .read
  if writes = 0 then reads.repr ++ " read lock(s)"
  else if reads = 0 then writes.repr ++ " write lock(s)"
  else writes.repr ++ " write and " ++ reads.repr ++ " read lock(s)"

/-- The locks one by one, in the order of the stores. -/
def notes (locks : LockMap) : List String :=
  locks.entries.map fun entry => entry.2.name ++ " lock on " ++ entry.1

/-- The code of a warning that locks are needed. -/
def warningCode : String := "TUNA-LOCK-0001"

/-- The warning for a function. -/
def warning (name : String) (locks : LockMap) : Diagnostic where
  code := warningCode
  severity := .warning
  stage := .analyze
  message := "function " ++ name ++ " needs " ++ locks.describe ++ " to run concurrently"
  function := some name
  notes := locks.notes
  data := NameMap.map (fun _ kind => .string kind.name) locks

end LockMap

/-- The locks that the functions of a program need. -/
abbrev Requirements := NameMap LockMap

namespace Requirements

/-- The functions that need locks, with their locks. -/
def needed (requirements : Requirements) : List (String × LockMap) :=
  requirements.entries.filter fun entry => !entry.2.isEmpty

def report (requirements : Requirements) : Report :=
  Report.ofDiagnostics (requirements.needed.map fun entry => entry.2.warning entry.1)

/-- The advice for one function, a lock on a line. -/
def warningText (name : String) (locks : LockMap) : String :=
  "Function " ++ name ++ " requires:\n" ++
    String.join (locks.notes.map fun note => "\t-" ++ note ++ "\n")

/-- The advice for all functions. -/
def text (requirements : Requirements) : String :=
  String.join (requirements.needed.map fun entry => warningText entry.1 entry.2)

end Requirements

/-- The locks that are needed according to an analysis. -/
def requirementsOf (analyses : NameMap Analysis) : Requirements :=
  analyses.map fun _ analysis => analysis.locks

end StoredProcedure
