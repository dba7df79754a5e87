import StoredProcedure.Double.Basic
import StoredProcedure.NameMap

/-!
JSON values. The members of an object stand in a list, in the order in which they are written.

A *normal* value has the members of every object in strictly ascending order of their keys, so
equal data have one normal value. `Json.normalize` sorts the members, the last member of a key
counting, and a `Datum` is a normal value: schemas and literals carried by instructions are data.
-/

namespace StoredProcedure

/-- The integers of JSON: those of a signed or of an unsigned 64-bit word. -/
structure WordInt where
  val : Int
  lower : -0x8000000000000000 ≤ val
  upper : val < 0x10000000000000000
deriving DecidableEq

namespace WordInt

def ofInt64 (n : Int64) : WordInt :=
  ⟨n.toInt, by have := n.le_toInt; omega, by have := n.toInt_lt; omega⟩

/-- A count, which is below the word size in every use; a larger one is cut off. -/
def ofCount (n : Nat) : WordInt :=
  ⟨(n % 0x10000000000000000 : Nat), by omega, by omega⟩

end WordInt

inductive Json where
  | null
  | bool (value : Bool)
  | int (value : WordInt)
  | double (value : Double)
  | string (value : String)
  | array (items : List Json)
  | object (members : List (String × Json))
deriving Inhabited

namespace Json

mutual
/-- How deep arrays and objects are nested. -/
def depth : Json → Nat
  | .null | .bool _ | .int _ | .double _ | .string _ => 0
  | .array items => depthItems items + 1
  | .object members => depthMembers members + 1
termination_by structural j => j

def depthItems : List Json → Nat
  | [] => 0
  | item :: rest => max item.depth (depthItems rest)
termination_by structural items => items

def depthMembers : List (String × Json) → Nat
  | [] => 0
  | (_, value) :: rest => max value.depth (depthMembers rest)
termination_by structural members => members
end

mutual
/-- The members of every object ascend strictly by key. -/
def Normal : Json → Prop
  | .null | .bool _ | .int _ | .double _ | .string _ => True
  | .array items => NormalItems items
  | .object members => (members.map Prod.fst).Pairwise (· < ·) ∧ NormalMembers members
termination_by structural j => j

def NormalItems : List Json → Prop
  | [] => True
  | item :: rest => item.Normal ∧ NormalItems rest
termination_by structural items => items

def NormalMembers : List (String × Json) → Prop
  | [] => True
  | (_, value) :: rest => value.Normal ∧ NormalMembers rest
termination_by structural members => members
end

mutual
/-- Sorts the members of every object by key; of the members of one key the last counts. -/
def normalize : Json → Json
  | .null => .null
  | .bool value => .bool value
  | .int value => .int value
  | .double value => .double value
  | .string value => .string value
  | .array items => .array (normalizeItems items)
  | .object members => .object (NameMap.ofList (normalizeMembers members)).entries
termination_by structural j => j

def normalizeItems : List Json → List Json
  | [] => []
  | item :: rest => item.normalize :: normalizeItems rest
termination_by structural items => items

def normalizeMembers : List (String × Json) → List (String × Json)
  | [] => []
  | (key, value) :: rest => (key, value.normalize) :: normalizeMembers rest
termination_by structural members => members
end

theorem normalMembers_iff {members : List (String × Json)} :
    NormalMembers members ↔ ∀ member ∈ members, member.2.Normal := by
  induction members with
  | nil => simp [NormalMembers]
  | cons member rest ih => simp [NormalMembers, ih]

mutual
theorem normal_normalize : (j : Json) → j.normalize.Normal
  | .null | .bool _ | .int _ | .double _ | .string _ => by simp [normalize, Normal]
  | .array items => by
      rw [normalize, Normal]
      exact normalItems_normalizeItems items
  | .object members => by
      rw [normalize, Normal]
      refine ⟨(NameMap.ofList _).ascending, normalMembers_iff.mpr fun member hmember => ?_⟩
      have hnormal := normalMembers_iff.mp (normalMembers_normalizeMembers members)
      exact hnormal member (NameMap.mem_of_mem_ofList hmember)
termination_by structural j => j

theorem normalItems_normalizeItems : (items : List Json) → NormalItems (normalizeItems items)
  | [] => trivial
  | item :: rest => ⟨normal_normalize item, normalItems_normalizeItems rest⟩
termination_by structural items => items

theorem normalMembers_normalizeMembers : (members : List (String × Json)) →
    NormalMembers (normalizeMembers members)
  | [] => trivial
  | (_, value) :: rest => ⟨normal_normalize value, normalMembers_normalizeMembers rest⟩
termination_by structural members => members
end

/-- The member of a key, if the value is an object that has one. -/
def member? (key : String) : Json → Option Json
  | .object members => NameMap.find? key members
  | _ => none

/-- The first item, if the value is an array that has one. -/
def head? : Json → Option Json
  | .array (item :: _) => some item
  | _ => none

def string? : Json → Option String
  | .string value => some value
  | _ => none

end Json

/-- A normal JSON value. -/
structure Datum where
  json : Json
  normal : json.Normal

namespace Datum

instance : Inhabited Datum := ⟨⟨.null, trivial⟩⟩

@[ext] theorem ext_json {a b : Datum} (h : a.json = b.json) : a = b := by
  cases a
  cases b
  simpa using h

def ofJson (j : Json) : Datum := ⟨j.normalize, j.normal_normalize⟩

def null : Datum := ⟨.null, trivial⟩

def bool (value : Bool) : Datum := ⟨.bool value, trivial⟩

def int (value : WordInt) : Datum := ⟨.int value, trivial⟩

def double (value : Double) : Datum := ⟨.double value, trivial⟩

def string (value : String) : Datum := ⟨.string value, trivial⟩

def emptyArray : Datum := ⟨.array [], trivial⟩

def emptyObject : Datum := ⟨.object [], .nil, trivial⟩

/-- The object of one member. -/
def entry (key : String) (value : Datum) : Datum :=
  ⟨.object [(key, value.json)], by simp, value.normal, trivial⟩

end Datum

end StoredProcedure
