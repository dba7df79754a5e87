import StoredProcedure.Json.Basic
import StoredProcedure.NameSet

namespace StoredProcedure

inductive Action where
  | get (store : String)
  | mutate (store : String) (dependsOn : NameSet)
deriving DecidableEq

/-- What reading expressions does: the stores that are read, in order, and the stores on which the
values depend. -/
structure Reads where
  actions : List Action
  taint : NameSet

namespace Reads

def none : Reads := ⟨[], .empty⟩

/-- One after the other. -/
def append (r s : Reads) : Reads :=
  ⟨r.actions ++ s.actions, r.taint ∪ s.taint⟩

instance : Append Reads := ⟨append⟩

/-- Reads a store after its keys. The value depends on the store and on the keys. -/
def store (keys : Reads) (name : String) : Reads :=
  ⟨keys.actions ++ [.get name], keys.taint.insert name⟩

end Reads

end StoredProcedure
