namespace StoredProcedure

inductive Kind where
  | bool
  | int
  | double
  | string
  | nothing
  | object
  | field
  | comparison
  | arithmetic
  | logic
  | negation
  | typeOf
  | hasType
  | saved
  | selection
  | fieldExists
  | keys
  | array
  | call
  | role
  | globalObject
  | wholeObject
  | keyOfObject
  | keyExists
  | keysOfObject
  | ret
  | save
  | update
  | choice
  | conditional
  | otherwise
  | lastly
  | forEach
  | noop
  | push
  | deleteField
  | setKey
  | deleteKey
  | pushAtKey
deriving DecidableEq

namespace Kind

/-- The name of a kind in a document. -/
def name : Kind → String
  | .bool => "Bool"
  | .int => "Int"
  | .double => "Double"
  | .string => "String"
  | .nothing => "None"
  | .object => "Object"
  | .field => "Field"
  | .comparison => "Comparison"
  | .arithmetic => "Math"
  | .logic => "BoolAlg"
  | .negation => "Not"
  | .typeOf => "GetType"
  | .hasType => "Is"
  | .saved => "Saved"
  | .selection => "Selection"
  | .fieldExists => "FieldExists"
  | .keys => "Keys"
  | .array => "ArrayLiteral"
  | .call => "Call"
  | .role => "RoleInstance"
  | .globalObject => "GlobalObject"
  | .wholeObject => "GetWholeObject"
  | .keyOfObject => "GetKeyFromObject"
  | .keyExists => "KeyExists"
  | .keysOfObject => "GetKeysOnly"
  | .ret => "Return"
  | .save => "Save"
  | .update => "Update"
  | .choice => "If"
  | .conditional => "Conditional"
  | .otherwise => "Else"
  | .lastly => "Finally"
  | .forEach => "ArrayForEach"
  | .noop => "Noop"
  | .push => "Push"
  | .deleteField => "DeleteField"
  | .setKey => "SetKeyOnObject"
  | .deleteKey => "DeleteKeyOnObject"
  | .pushAtKey => "PushAtKeyOnObject"

/-- All kinds, values first. -/
def all : List Kind := [
  .bool, .int, .double, .string, .nothing, .object, .field, .comparison, .arithmetic, .logic,
  .negation, .typeOf, .hasType, .saved, .selection, .fieldExists, .keys, .array, .call, .role,
  .globalObject, .wholeObject, .keyOfObject, .keyExists, .keysOfObject, .ret, .save, .update,
  .choice, .conditional, .otherwise, .lastly, .forEach, .noop, .push, .deleteField, .setKey,
  .deleteKey, .pushAtKey]

theorem mem_all (kind : Kind) : kind ∈ all := by
  cases kind <;> decide

/-- The kind of a name. -/
def ofName? (name : String) : Option Kind :=
  all.find? fun kind => kind.name = name

@[simp] theorem ofName?_name (kind : Kind) : ofName? kind.name = some kind := by
  cases kind <;> decide

/-- The kinds of expressions, in the order of their numbers. -/
def expressions : List Kind := [
  .bool, .int, .double, .string, .nothing, .object, .comparison, .arithmetic, .logic, .negation,
  .typeOf, .hasType, .saved, .selection, .fieldExists, .keys, .array, .call, .role, .globalObject,
  .wholeObject, .keyOfObject, .keyExists, .keysOfObject]

def targets : List Kind := [.saved, .globalObject]

def edits : List Kind := [.push, .deleteField]

def branches : List Kind := [.conditional, .otherwise, .lastly]

def statements : List Kind := [
  .ret, .save, .update, .choice, .forEach, .call, .noop, .setKey, .deleteKey, .pushAtKey]

end Kind

end StoredProcedure
