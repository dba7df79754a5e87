import StoredProcedure.Json.Document
import StoredProcedure.Syntax.Kind

/-!
Records and nodes in documents. A record is written as an object, in which unknown members are
ignored and no known member may be repeated, or as the array of its fields in the order of their
declaration, of which the last may be left out. A node is a record with a kind, which is a member of
the object or the first item of the array. A kind is written as its name; in a node that is part of
another node it may also be written as its number among the kinds that the node may have.
-/

namespace StoredProcedure

/-- The fields of a record: named, or listed in the order of their declaration. -/
inductive Fields (α : Type) where
  | named (members : List (String × α))
  | listed (items : List α)

namespace Fields

variable {α : Type}

/-- The member of a name, if there is one. Two members of the name are refused. -/
def unique? (name : String) (members : List (String × α)) : Option (Option α) :=
  match members.filter fun member => member.1 = name with
  | [] => some none
  | [member] => some (some member.2)
  | _ => none

/-- The values of declared fields, none for a field that is missing. -/
def values? (names : List String) : Fields α → Option (List (Option α))
  | .named members => names.mapM fun name => unique? name members
  | .listed items =>
      if items.length ≤ names.length then
        some (items.map some ++ List.replicate (names.length - items.length) none)
      else none

/-- The values of declared fields, none of which may be missing. -/
def all? (names : List String) (fields : Fields α) : Option (List α) := do
  (← fields.values? names).mapM id

end Fields

/-- The kind that a value stands for, by its name or by its number among some kinds. -/
def Kind.ofJson? (numbered : List Kind) : Json → Option Kind
  | .string name => ofName? name
  | .int index => if 0 ≤ index.val then numbered[index.val.toNat]? else none
  | _ => none

namespace Json

def fields? : Json → Option (Fields Json)
  | .object members => some (.named members)
  | .array items => some (.listed items)
  | _ => none

/-- The kind and the fields of a node that may have some kinds. -/
def node? (numbered : List Kind) : Json → Option (Kind × Fields Json)
  | .object members => do
      return (← Kind.ofJson? numbered (← (← Fields.unique? "kind" members)), .named members)
  | .array (kind :: items) => do
      return (← Kind.ofJson? numbered kind, .listed items)
  | _ => none

/-- A sign, which may also be the only key of an object, with nothing for its value. -/
def sign? : Json → Option String
  | .string sign => some sign
  | .object [(sign, .null)] | .object [(sign, .object [])] => some sign
  | _ => none

def bool? : Json → Option Bool
  | .bool value => some value
  | _ => none

/-- An integer of a signed 64-bit word. -/
def int64? : Json → Option Int64
  | .int value => if value.val < 0x8000000000000000 then some (Int64.ofInt value.val) else none
  | _ => none

/-- An integer of an unsigned 64-bit word. -/
def nat? : Json → Option Nat
  | .int value => if 0 ≤ value.val then some value.val.toNat else none
  | _ => none

/-- A number as a double; an integer is rounded. -/
def double? : Json → Option Double
  | .double value => some value
  | .int value => Double.ofFraction? (value.val < 0) value.val.natAbs 1
  | _ => none

/-- The items of an array, each read by `read`. -/
def listOf? {α : Type} (read : Json → Option α) : Json → Option (List α)
  | .array items => items.mapM read
  | _ => none

/-- A list that may be missing, which counts as empty. -/
def listOrMissing? {α : Type} (read : Json → Option α) : Option Json → Option (List α)
  | none => some []
  | some j => j.listOf? read

/-- A part that may be missing or null. -/
def partOrMissing? {α : Type} (read : Json → Option α) : Option Json → Option (Option α)
  | none | some .null => some none
  | some j => (read j).map some

end Json

namespace Document

/-- The fields of a record that is read part by part, so that unknown members are skipped. -/
def fields? : Document → Option (Fields Document)
  | .object members => do
      return .named (← members.mapM fun member => member.1.map fun key => (key, member.2))
  | .array items => some (.listed items)
  | _ => none

def text? : Document → Option String
  | .string text => text
  | _ => none

/-- The items of an array, each read by `read`. -/
def listOf? {α : Type} (read : Document → Option α) : Document → Option (List α)
  | .array items => items.mapM read
  | _ => none

/-- The map of an object; of several members of one key the last counts, but all are read. -/
def mapOf? {α : Type} (read : Document → Option α) : Document → Option (NameMap α)
  | .object members => do
      return NameMap.ofList (← members.mapM fun member => do
        return (← member.1, ← read member.2))
  | _ => none

end Document

end StoredProcedure
