import StoredProcedure.Json.Basic
import StoredProcedure.Syntax.Kind

namespace StoredProcedure

inductive Comparison where
  | equal
  | notEqual
  | less
  | greater
  | lessEqual
  | greaterEqual
deriving DecidableEq

inductive Arithmetic where
  | add
  | subtract
  | multiply
  | divide
deriving DecidableEq

inductive Logic where
  | and
  | or
deriving DecidableEq

inductive Expr where
  | bool (value : Bool)
  | int (value : Int64)
  | double (value : Double)
  | string (value : String)
  | nothing
  | object (fields : List (Expr × Expr))
  | comparison (sign : Comparison) (left right : Expr)
  | arithmetic (sign : Arithmetic) (left right : Expr)
  | logic (sign : Logic) (left right : Expr)
  | negation (value : Expr)
  | typeOf (value : Expr)
  | hasType (value : Expr) (type : String)
  | saved (name : String)
  | selection (root : Expr) (level : List Expr)
  | fieldExists (value field : Expr)
  | keys (source : Expr)
  | array (values : List Expr)
  | call (function : String) (args : List Expr)
  | role (schema : Datum) (state : Option Expr)
  | globalObject (name : String)
  | wholeObject (store : String)
  | keyOfObject (store : String) (key : List Expr)
  | keyExists (store : String) (key : Expr)
  | keysOfObject (store : String)
deriving Inhabited

namespace Expr

def kind : Expr → Kind
  | .bool _ => .bool
  | .int _ => .int
  | .double _ => .double
  | .string _ => .string
  | .nothing => .nothing
  | .object _ => .object
  | .comparison _ _ _ => .comparison
  | .arithmetic _ _ _ => .arithmetic
  | .logic _ _ _ => .logic
  | .negation _ => .negation
  | .typeOf _ => .typeOf
  | .hasType _ _ => .hasType
  | .saved _ => .saved
  | .selection _ _ => .selection
  | .fieldExists _ _ => .fieldExists
  | .keys _ => .keys
  | .array _ => .array
  | .call _ _ => .call
  | .role _ _ => .role
  | .globalObject _ => .globalObject
  | .wholeObject _ => .wholeObject
  | .keyOfObject _ _ => .keyOfObject
  | .keyExists _ _ => .keyExists
  | .keysOfObject _ => .keysOfObject

/-- The direct subexpressions, in the order of their evaluation. -/
def children : Expr → List Expr
  | .bool _ | .int _ | .double _ | .string _ | .nothing | .saved _ => []
  | .globalObject _ | .wholeObject _ | .keysOfObject _ => []
  | .object fields => fields.flatMap fun field => [field.1, field.2]
  | .comparison _ left right | .arithmetic _ left right | .logic _ left right => [left, right]
  | .negation value | .typeOf value | .hasType value _ => [value]
  | .selection root level => root :: level
  | .fieldExists value field => [value, field]
  | .keys source => [source]
  | .array values => values
  | .call _ args => args
  | .role _ state => state.toList
  | .keyOfObject _ key => key
  | .keyExists _ key => [key]

mutual
/-- The kinds of all nodes of an expression, each node before its parts. -/
def kinds : Expr → List Kind
  | .bool _ => [.bool]
  | .int _ => [.int]
  | .double _ => [.double]
  | .string _ => [.string]
  | .nothing => [.nothing]
  | .object fields => .object :: kindsFields fields
  | .comparison _ left right => .comparison :: left.kinds ++ right.kinds
  | .arithmetic _ left right => .arithmetic :: left.kinds ++ right.kinds
  | .logic _ left right => .logic :: left.kinds ++ right.kinds
  | .negation value => .negation :: value.kinds
  | .typeOf value => .typeOf :: value.kinds
  | .hasType value _ => .hasType :: value.kinds
  | .saved _ => [.saved]
  | .selection root level => .selection :: root.kinds ++ kindsList level
  | .fieldExists value field => .fieldExists :: value.kinds ++ field.kinds
  | .keys source => .keys :: source.kinds
  | .array values => .array :: kindsList values
  | .call _ args => .call :: kindsList args
  | .role _ state => .role :: kindsOption state
  | .globalObject _ => [.globalObject]
  | .wholeObject _ => [.wholeObject]
  | .keyOfObject _ key => .keyOfObject :: kindsList key
  | .keyExists _ key => .keyExists :: key.kinds
  | .keysOfObject _ => [.keysOfObject]
termination_by structural e => e

def kindsList : List Expr → List Kind
  | [] => []
  | e :: rest => e.kinds ++ kindsList rest
termination_by structural es => es

def kindsFields : List (Expr × Expr) → List Kind
  | [] => []
  | (key, value) :: rest => .field :: key.kinds ++ value.kinds ++ kindsFields rest
termination_by structural fields => fields

def kindsOption : Option Expr → List Kind
  | none => []
  | some e => e.kinds
termination_by structural o => o
end

end Expr

/-- The name in a role's schema. Such a schema has the kind `Role`, and its data start with the
name. -/
def Datum.roleName? (schema : Datum) : Option String := do
  let kind ← (← schema.json.member? "kind").string?
  if kind ≠ "Role" then none
  else (← (← schema.json.member? "data").head?).string?

end StoredProcedure
