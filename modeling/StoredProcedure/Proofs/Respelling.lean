import Mathlib.Logic.Relation
import StoredProcedure.Syntax.Reader

/-!
Other spellings of a program document. The members of an object that stands for a record or a node
may be put into another order, and members that are not declared for it may be added. The functions
of a program and the members of a schema have names of their own choice; there, members of different
names may change places.

A part of a document has a role, which tells what it stands for. The role of a part follows from the
role of what it is a part of, and there from its name or its position.
-/

namespace StoredProcedure

/-- What a part of a program document stands for. -/
inductive Role where
  | program
  | functions
  | function
  | input
  | statement
  | branch
  | target
  | operation
  | expr
  | field
  | schema
  | listOf (role : Role)
  /-- A name, a number or a sign, which has no other spelling. -/
  | plain

/-- The fields of an expression of a kind, in the order of their declaration. -/
def Kind.exprFields : Kind → List (String × Role)
  | .bool | .int | .double | .string => [("value", .plain)]
  | .object => [("fields", .listOf .field)]
  | .comparison | .arithmetic | .logic => [("sign", .plain), ("left", .expr), ("right", .expr)]
  | .negation | .typeOf => [("value", .expr)]
  | .hasType => [("value", .expr), ("type", .plain)]
  | .saved => [("arg", .plain)]
  | .selection => [("root", .expr), ("level", .listOf .expr)]
  | .fieldExists => [("value", .expr), ("field", .expr)]
  | .keys => [("from", .expr)]
  | .array => [("values", .listOf .expr)]
  | .call => [("function_name", .plain), ("args", .listOf .expr)]
  | .role => [("role", .schema), ("state", .expr)]
  | .globalObject | .wholeObject => [("name", .plain)]
  | .keyOfObject => [("obj", .plain), ("key", .listOf .expr)]
  | .keyExists => [("obj", .plain), ("key", .expr)]
  | .keysOfObject => [("obj", .plain)]
  | _ => []

def Kind.targetFields : Kind → List (String × Role)
  | .saved => [("arg", .plain)]
  | .globalObject => [("name", .plain)]
  | _ => []

def Kind.editFields : Kind → List (String × Role)
  | .push => [("values", .listOf .expr)]
  | _ => []

/-- The fields of an operation that has the first kind among edits and the second among expressions.
One number stands for a push and for a boolean, and what has that number has the fields of both. -/
def Kind.operationFields (edit value : Option Kind) : List (String × Role) :=
  match edit with
  | some .push =>
      ("values", .listOf .expr) :: if value = some .bool then [("value", .plain)] else []
  | some .deleteField => []
  | _ => value.elim [] exprFields

def Kind.branchFields : Kind → List (String × Role)
  | .conditional => [("cond", .expr), ("do", .listOf .statement)]
  | .otherwise | .lastly => [("do", .listOf .statement)]
  | _ => []

def Kind.statementFields : Kind → List (String × Role)
  | .ret => [("value", .expr)]
  | .save => [("name", .plain), ("value", .expr)]
  | .update => [("root", .target), ("level", .listOf .expr), ("operation", .operation)]
  | .choice => [("conditionally", .listOf .branch)]
  | .forEach => [("target", .expr), ("arg", .plain), ("do", .listOf .statement)]
  | .call => [("function_name", .plain), ("args", .listOf .expr)]
  | .setKey => [("obj", .plain), ("key", .listOf .expr), ("value", .expr)]
  | .deleteKey => [("obj", .plain), ("key", .listOf .expr)]
  | .pushAtKey => [("obj", .plain), ("key", .listOf .expr), ("values", .listOf .expr)]
  | _ => []

namespace Role

/-- The fields that are declared for what has the role. If it is a node, `kind?` gives its kind
among those that a node of the role may have. -/
def fields (kind? : List Kind → Option Kind) : Role → List (String × Role)
  | .program => [("schema_version", .plain), ("globals", .plain), ("functions", .functions)]
  | .function => [("input", .listOf .input), ("computation", .listOf .statement)]
  | .input => [("name", .plain), ("schema", .schema)]
  | .field => [("key", .expr), ("value", .expr)]
  | .expr => (kind? Kind.expressions).elim [] Kind.exprFields
  | .target => (kind? Kind.targets).elim [] Kind.targetFields
  | .operation => Kind.operationFields (kind? Kind.edits) (kind? Kind.expressions)
  | .branch => (kind? Kind.branches).elim [] Kind.branchFields
  | .statement => (kind? Kind.statements).elim [] Kind.statementFields
  | _ => []

/-- A node has a kind besides its fields. -/
def isNode : Role → Bool
  | .expr | .target | .operation | .branch | .statement => true
  | _ => false

/-- A record that is read part by part, so that what is not declared is skipped unread. -/
def isOuter : Role → Bool
  | .program | .function | .input => true
  | _ => false

/-- A record or a node: it has the fields that are declared for it. -/
def isRecord (role : Role) : Bool :=
  role.isNode || role.isOuter || role matches .field

/-- The kind of a node and its fields, as they follow each other in an array. -/
def declared (role : Role) (kind? : List Kind → Option Kind) : List (String × Role) :=
  (if role.isNode then [("kind", .plain)] else []) ++ role.fields kind?

/-- The role of a member of an object. -/
def ofMember (role : Role) (kind? : List Kind → Option Kind) (key : Option String) : Role :=
  match role with
  | .functions => .function
  | .schema => .schema
  | role => ((role.declared kind?).find? fun field => some field.1 = key).elim .plain Prod.snd

/-- The role of an item of an array. -/
def ofItem (role : Role) (kind? : List Kind → Option Kind) (index : Nat) : Role :=
  match role with
  | .listOf role => role
  | .schema => .schema
  | role => (role.declared kind?)[index]?.elim .plain Prod.snd

end Role

def Kind.ofDocument? (numbered : List Kind) (d : Document) : Option Kind :=
  (d.json? 0).bind (ofJson? numbered)

namespace Document

/-- The kind that is written in a node that may have some kinds. -/
def kind? (d : Document) (numbered : List Kind) : Option Kind :=
  match d with
  | .object members =>
      match members.filter fun member => member.1 = some "kind" with
      | [member] => Kind.ofDocument? numbered member.2
      | _ => none
  | .array (kind :: _) => Kind.ofDocument? numbered kind
  | _ => none

/-- Arrays and objects nest at most `limit` deep, and numbers are in range. -/
inductive WithinLimits : (limit : Nat) → Document → Prop
  | null {limit : Nat} : WithinLimits limit .null
  | bool {limit : Nat} {value : Bool} : WithinLimits limit (.bool value)
  | number {limit : Nat} {value : Numeral} (h : value.json?.isSome = true) :
      WithinLimits limit (.number value)
  | string {limit : Nat} {text : Option String} : WithinLimits limit (.string text)
  | array {limit : Nat} {items : List Document} (h : ∀ item ∈ items, WithinLimits limit item) :
      WithinLimits (limit + 1) (.array items)
  | object {limit : Nat} {members : List (Option String × Document)}
      (h : ∀ member ∈ members, WithinLimits limit member.2) :
      WithinLimits (limit + 1) (.object members)

/-- All strings are texts, those that are names of members included. -/
inductive WellEncoded : Document → Prop
  | null : WellEncoded .null
  | bool {value : Bool} : WellEncoded (.bool value)
  | number {value : Numeral} : WellEncoded (.number value)
  | string {text : Option String} (h : text.isSome = true) : WellEncoded (.string text)
  | array {items : List Document} (h : ∀ item ∈ items, WellEncoded item) :
      WellEncoded (.array items)
  | object {members : List (Option String × Document)}
      (hnames : ∀ member ∈ members, member.1.isSome = true)
      (h : ∀ member ∈ members, WellEncoded member.2) : WellEncoded (.object members)

end Document

/-- Which members may be added to an object that has a role and stands where so many levels may be
nested. -/
def Insertion : Type := Role → (levels : Nat) → Document → Option String × Document → Prop

namespace Insertion

/-- Members that are not declared, with values that are within the limits. -/
def undeclared : Insertion := fun role levels d member =>
  (∀ field ∈ role.declared d.kind?, member.1 ≠ some field.1) ∧
    member.2.WithinLimits (levels - 1)

/-- Members that are not declared and have a text for a name. Where they are read, their values are
within the limits and the strings in them are texts; where they are skipped, they are anything. -/
def readable : Insertion := fun role levels d member =>
  (∀ field ∈ role.declared d.kind?, member.1 ≠ some field.1) ∧ member.1.isSome = true ∧
    (role.isOuter = true ∨ member.2.WithinLimits (levels - 1) ∧ member.2.WellEncoded)

end Insertion

/-- The second document differs from the first in the spelling of one object. They have the role and
stand where so many levels may be nested. -/
inductive Respells (insertion : Insertion) : Role → (levels : Nat) → Document → Document → Prop
  | permute {role : Role} {levels : Nat} {members members' : List (Option String × Document)}
      (hrole : role.isRecord = true) (h : members.Perm members') :
      Respells insertion role levels (.object members) (.object members')
  /-- Members of one name stay in their order. -/
  | rearrange {role : Role} {levels : Nat} {members members' : List (Option String × Document)}
      (hrole : role = .functions ∨ role = .schema) (h : members.Perm members')
      (hnames : ∀ name : String, (members.filter fun member => member.1 = some name) =
        members'.filter fun member => member.1 = some name) :
      Respells insertion role levels (.object members) (.object members')
  | insert {role : Role} {levels : Nat} {before after : List (Option String × Document)}
      {member : Option String × Document} (hrole : role.isRecord = true)
      (hmember : insertion role levels (.object (before ++ after)) member) :
      Respells insertion role levels (.object (before ++ after))
        (.object (before ++ member :: after))
  | member {role : Role} {levels : Nat} {before after : List (Option String × Document)}
      {key : Option String} {d d' : Document}
      (h : Respells insertion
        (role.ofMember (Document.object (before ++ (key, d) :: after)).kind? key) (levels - 1)
          d d') :
      Respells insertion role levels (.object (before ++ (key, d) :: after))
        (.object (before ++ (key, d') :: after))
  | item {role : Role} {levels : Nat} {before after : List Document} {d d' : Document}
      (h : Respells insertion
        (role.ofItem (Document.array (before ++ d :: after)).kind? before.length) (levels - 1)
          d d') :
      Respells insertion role levels (.array (before ++ d :: after))
        (.array (before ++ d' :: after))

/-- Two spellings of a program document, which differ in any number of objects. -/
def Document.Respelled (insertion : Insertion) : Document → Document → Prop :=
  Relation.EqvGen (Respells insertion .program nestingLimit)

end StoredProcedure
