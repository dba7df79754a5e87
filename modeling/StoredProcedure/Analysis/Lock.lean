import StoredProcedure.Analysis.Action
import StoredProcedure.NameMap

namespace StoredProcedure

inductive LockKind where
  | read
  | write
deriving DecidableEq

def LockKind.name : LockKind → String
  | .read => "read"
  | .write => "write"

/-- The locks by store. -/
abbrev LockMap := NameMap LockKind

/-- The locks that the actions so far need, and the stores that their changes depended on. -/
structure Locking where
  locks : LockMap
  depended : NameSet

namespace Locking

/-- Before the first action. -/
def start : Locking := ⟨.empty, .empty⟩

/-- A change of `changed` depends on a store. A lock for writing stays one. -/
def depend (changed : String) (l : Locking) (store : String) : Locking where
  locks := l.locks.insert store
    (if store = changed ∨ l.locks.get? store = some .write then .write else .read)
  depended := l.depended.insert store

/-- A store is changed, which matters if some change depended on it. -/
def change (l : Locking) (store : String) : Locking :=
  if store ∈ l.depended then { l with locks := l.locks.insert store .write } else l

/-- One more action. -/
def step (l : Locking) : Action → Locking
  | .get _ => l
  | .mutate store dependsOn => (dependsOn.names.foldl (depend store) l).change store

end Locking

namespace LockMap

/-- The locks that actions need. -/
def ofActions (actions : List Action) : LockMap :=
  (actions.foldl Locking.step .start).locks

/-- The locks that each prefix of the actions needs, the shortest first, without the empty one. -/
def ofPrefixes (actions : List Action) : List LockMap :=
  go .start actions
where
  go (l : Locking) : List Action → List LockMap
    | [] => []
    | action :: rest => (l.step action).locks :: go (l.step action) rest

end LockMap

end StoredProcedure
