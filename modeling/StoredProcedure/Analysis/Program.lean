import StoredProcedure.Analysis.Lock
import StoredProcedure.Analysis.Summary
import StoredProcedure.Syntax.Writer

namespace StoredProcedure

/-- What the analysis says of a function. -/
structure Analysis where
  actions : List Action
  locks : LockMap

/-- The analysis of a lowered function. -/
def Function.analyze (f : Function) : Except Fault Analysis := do
  let actions ← f.summarize
  return ⟨actions, LockMap.ofActions actions⟩

namespace Program

/-- Analyzes one function of a lowered program. -/
def analyzeFunction (name : String) (f : Function) : Except Failure Analysis :=
  match f.analyze with
  | .ok analysis => .ok analysis
  | .error fault => .error ((Failure.ofFault fault).inFunction name)

/-- Analyzes all functions of a lowered program. -/
def analyzeLowered (p : Program) : Except Failure (NameMap Analysis) :=
  p.functions.traverse analyzeFunction

/-- Lowers and analyzes all functions. -/
def analyze (p : Program) : Except Failure (NameMap Analysis) := do
  (← p.lower).analyzeLowered

end Program

def Action.toJson : Action → Json
  | .get store => .object [("kind", .string "get"), ("global", .string store)]
  | .mutate store dependsOn =>
      .object
        [("kind", .string "mutate"), ("global", .string store), ("depends_on", dependsOn.toJson)]

def LockMap.toJson (locks : LockMap) : Json :=
  NameMap.toJson (fun kind => .string kind.name) locks

end StoredProcedure
