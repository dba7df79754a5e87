import StoredProcedure.Json.Basic

namespace StoredProcedure

namespace Double

/-- Equality of numbers: the two zeros are equal. -/
def same (a b : Double) : Bool :=
  a = b || (a.rank.val = 0 && b.rank.val = 0)

theorem same_comm (a b : Double) : a.same b = b.same a := by
  simp only [same, eq_comm (a := a), Bool.and_comm]

end Double

namespace Json

mutual
/-- Equality of values. It is equality of data but for the two zeros among the doubles. -/
def same : Json → Json → Bool
  | .null, .null => true
  | .bool a, .bool b => a = b
  | .int a, .int b => a = b
  | .double a, .double b => a.same b
  | .string a, .string b => a = b
  | .array items, .array others => sameItems items others
  | .object members, .object others => sameMembers members others
  | _, _ => false
termination_by structural j => j

def sameItems : List Json → List Json → Bool
  | [], [] => true
  | item :: rest, other :: others => item.same other && sameItems rest others
  | _, _ => false
termination_by structural items => items

def sameMembers : List (String × Json) → List (String × Json) → Bool
  | [], [] => true
  | (key, value) :: rest, (other, otherValue) :: others =>
      key = other && value.same otherValue && sameMembers rest others
  | _, _ => false
termination_by structural members => members
end

mutual
theorem same_comm : (a b : Json) → a.same b = b.same a
  | .null, b => by cases b <;> rfl
  | .bool _, b => by cases b <;> simp [same, eq_comm]
  | .int _, b => by cases b <;> simp [same, eq_comm]
  | .double _, b => by cases b <;> simp [same, Double.same_comm]
  | .string _, b => by cases b <;> simp [same, eq_comm]
  | .array items, b => by
      cases b with
      | array others => exact sameItems_comm items others
      | _ => rfl
  | .object members, b => by
      cases b with
      | object others => exact sameMembers_comm members others
      | _ => rfl
termination_by structural j => j

theorem sameItems_comm : (items others : List Json) → sameItems items others = sameItems others items
  | [], others => by cases others <;> rfl
  | item :: rest, others => by
      cases others with
      | nil => rfl
      | cons other others =>
          rw [sameItems, sameItems, same_comm item other, sameItems_comm rest others]
termination_by structural items => items

theorem sameMembers_comm : (members others : List (String × Json)) →
    sameMembers members others = sameMembers others members
  | [], others => by cases others <;> rfl
  | (key, value) :: rest, others => by
      cases others with
      | nil => rfl
      | cons other others =>
          rw [sameMembers, sameMembers, same_comm value other.2, sameMembers_comm rest others]
          simp only [eq_comm (a := key)]
termination_by structural members => members
end

/-- The items of a normal array, each with the proof that it is normal. -/
def data : (items : List Json) → NormalItems items → List Datum
  | [], _ => []
  | item :: rest, h => ⟨item, h.1⟩ :: data rest h.2

theorem normalItems_map_json (items : List Datum) : NormalItems (items.map Datum.json) := by
  induction items with
  | nil => trivial
  | cons item rest ih => exact ⟨item.normal, ih⟩

theorem data_map_json (items : List Datum) :
    data (items.map Datum.json) (normalItems_map_json items) = items := by
  induction items with
  | nil => rfl
  | cons item rest ih => exact congrArg (item :: ·) ih

theorem map_json_data (items : List Json) (h : NormalItems items) :
    (data items h).map Datum.json = items := by
  induction items with
  | nil => rfl
  | cons item rest ih => exact congrArg (item :: ·) (ih h.2)

end Json

namespace Datum

def same (a b : Datum) : Bool :=
  a.json.same b.json

theorem same_comm (a b : Datum) : a.same b = b.same a :=
  Json.same_comm a.json b.json

/-- The truth value that a value is, if it is one. -/
def bool? (d : Datum) : Option Bool :=
  match d.json with
  | .bool value => some value
  | _ => none

@[simp] theorem bool?_bool (value : Bool) : (bool value).bool? = some value := rfl

/-- The signed integer that a value is, if it is one. Larger integers of the unsigned word are
none. -/
def int? (d : Datum) : Option Int :=
  match d.json with
  | .int value => if value.val < 0x8000000000000000 then some value.val else none
  | _ => none

/-- A signed integer as a value, or none if it overflows. -/
def ofInt? : Int → Option Datum
  | .ofNat n => if h : n < 0x8000000000000000 then some (.int ⟨n, by omega, by omega⟩) else none
  | .negSucc n => if h : n < 0x8000000000000000 then some (.int ⟨.negSucc n, by omega, by omega⟩) else none

/-- The sum of two integers, or none if it overflows. -/
def add (a b : Datum) : Option Datum := do
  ofInt? ((← a.int?) + (← b.int?))

/-- The array of some values. -/
def array (items : List Datum) : Datum :=
  ⟨.array (items.map json), Json.normalItems_map_json items⟩

/-- The items of a value, if it is an array. -/
def items? (d : Datum) : Option (List Datum) :=
  match d with
  | ⟨.array items, h⟩ => some (Json.data items h)
  | _ => none

@[simp] theorem items?_array (items : List Datum) : (array items).items? = some items :=
  congrArg some (Json.data_map_json items)

theorem eq_array_of_items? {d : Datum} {items : List Datum} (h : d.items? = some items) :
    d = array items := by
  rcases d with ⟨json, hjson⟩
  cases json with
  | array values =>
      obtain rfl := Option.some.inj h
      have hvalues := Json.map_json_data values hjson
      exact ext_json (congrArg Json.array hvalues.symm)
  | _ => cases h

theorem ofInt?_count (n : Nat) :
    ofInt? n = if h : n < 0x8000000000000000 then some (int ⟨n, by omega, by omega⟩) else none := rfl

theorem lt_of_ofInt?_count {n : Nat} {d : Datum} (h : ofInt? n = some d) : n < 0x8000000000000000 := by
  rw [ofInt?_count] at h
  split at h
  · assumption
  · cases h

theorem same_ofInt?_count {zero : WordInt} (hzero : zero.val = 0) {n : Nat} {d : Datum}
    (h : ofInt? n = some d) : (int zero).same d = decide (n = 0) := by
  rw [ofInt?_count] at h
  split at h
  · obtain rfl := Option.some.inj h
    rcases zero with ⟨val, _, _⟩
    change val = 0 at hzero
    simp only [same, int, Json.same, WordInt.mk.injEq, decide_eq_decide]
    omega
  · cases h

end Datum

end StoredProcedure
