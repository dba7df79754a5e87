import StoredProcedure.Syntax.Program

namespace StoredProcedure

def Comparison.sign : Comparison → String
  | .equal => "=="
  | .notEqual => "!="
  | .less => "<"
  | .greater => ">"
  | .lessEqual => "<="
  | .greaterEqual => ">="

def Arithmetic.sign : Arithmetic → String
  | .add => "+"
  | .subtract => "-"
  | .multiply => "*"
  | .divide => "/"

def Logic.sign : Logic → String
  | .and => "and"
  | .or => "or"

/-- A node with its kind and fields. -/
def Kind.node (kind : Kind) (fields : List (String × Json)) : Json :=
  .object (("kind", .string kind.name) :: fields)

namespace Expr

mutual
def toJson : Expr → Json
  | .bool value => Kind.bool.node [("value", .bool value)]
  | .int value => Kind.int.node [("value", .int (WordInt.ofInt64 value))]
  | .double value => Kind.double.node [("value", .double value)]
  | .string value => Kind.string.node [("value", .string value)]
  | .nothing => Kind.nothing.node []
  | .object fields => Kind.object.node [("fields", .array (fieldsToJson fields))]
  | .comparison sign left right =>
      Kind.comparison.node
        [("sign", .string sign.sign), ("left", left.toJson), ("right", right.toJson)]
  | .arithmetic sign left right =>
      Kind.arithmetic.node
        [("sign", .string sign.sign), ("left", left.toJson), ("right", right.toJson)]
  | .logic sign left right =>
      Kind.logic.node
        [("sign", .string sign.sign), ("left", left.toJson), ("right", right.toJson)]
  | .negation value => Kind.negation.node [("value", value.toJson)]
  | .typeOf value => Kind.typeOf.node [("value", value.toJson)]
  | .hasType value type =>
      Kind.hasType.node [("value", value.toJson), ("type", .string type)]
  | .saved name => Kind.saved.node [("arg", .string name)]
  | .selection root level =>
      Kind.selection.node [("root", root.toJson), ("level", .array (listToJson level))]
  | .fieldExists value field =>
      Kind.fieldExists.node [("value", value.toJson), ("field", field.toJson)]
  | .keys source => Kind.keys.node [("from", source.toJson)]
  | .array values => Kind.array.node [("values", .array (listToJson values))]
  | .call function args =>
      Kind.call.node [("function_name", .string function), ("args", .array (listToJson args))]
  | .role schema state => Kind.role.node (("role", schema.json) :: stateToJson state)
  | .globalObject name => Kind.globalObject.node [("name", .string name)]
  | .wholeObject store => Kind.wholeObject.node [("name", .string store)]
  | .keyOfObject store key =>
      Kind.keyOfObject.node [("obj", .string store), ("key", .array (listToJson key))]
  | .keyExists store key =>
      Kind.keyExists.node [("obj", .string store), ("key", key.toJson)]
  | .keysOfObject store => Kind.keysOfObject.node [("obj", .string store)]
termination_by structural e => e

def listToJson : List Expr → List Json
  | [] => []
  | e :: rest => e.toJson :: listToJson rest
termination_by structural es => es

def fieldsToJson : List (Expr × Expr) → List Json
  | [] => []
  | (key, value) :: rest =>
      Kind.field.node [("key", key.toJson), ("value", value.toJson)] :: fieldsToJson rest
termination_by structural fields => fields

def stateToJson : Option Expr → List (String × Json)
  | none => []
  | some state => [("state", state.toJson)]
termination_by structural state => state
end

end Expr

def Target.toJson : Target → Json
  | .saved name => Kind.saved.node [("arg", .string name)]
  | .globalObject name => Kind.globalObject.node [("name", .string name)]

def Edit.toJson : Edit → Json
  | .push values => Kind.push.node [("values", .array (Expr.listToJson values))]
  | .deleteField => Kind.deleteField.node []
  | .set value => value.toJson

/-- A branch with the values of its statements. -/
def Guard.toJson (body : List Json) : Guard → Json
  | .when condition => Kind.conditional.node [("cond", condition.toJson), ("do", .array body)]
  | .otherwise => Kind.otherwise.node [("do", .array body)]
  | .lastly => Kind.lastly.node [("do", .array body)]

namespace Statement

mutual
def toJson : Statement → Json
  | .ret (some value) => Kind.ret.node [("value", value.toJson)]
  | .ret none => Kind.ret.node []
  | .save name value => Kind.save.node [("name", .string name), ("value", value.toJson)]
  | .update target level edit =>
      Kind.update.node
        [("root", target.toJson), ("level", .array (Expr.listToJson level)),
          ("operation", edit.toJson)]
  | .choice branches => Kind.choice.node [("conditionally", .array (branchesToJson branches))]
  | .forEach source item body =>
      Kind.forEach.node
        [("target", source.toJson), ("arg", .string item), ("do", .array (listToJson body))]
  | .call function args =>
      Kind.call.node
        [("function_name", .string function), ("args", .array (Expr.listToJson args))]
  | .noop => Kind.noop.node []
  | .setKey store key value =>
      Kind.setKey.node
        [("obj", .string store), ("key", .array (Expr.listToJson key)), ("value", value.toJson)]
  | .deleteKey store key =>
      Kind.deleteKey.node [("obj", .string store), ("key", .array (Expr.listToJson key))]
  | .pushAtKey store key values =>
      Kind.pushAtKey.node
        [("obj", .string store), ("key", .array (Expr.listToJson key)),
          ("values", .array (Expr.listToJson values))]
termination_by structural s => s

def listToJson : List Statement → List Json
  | [] => []
  | s :: rest => s.toJson :: listToJson rest
termination_by structural body => body

def branchesToJson : List (Guard × List Statement) → List Json
  | [] => []
  | (guard, body) :: rest => guard.toJson (listToJson body) :: branchesToJson rest
termination_by structural branches => branches
end

end Statement

def Input.toJson (input : Input) : Json :=
  .object [("name", .string input.name), ("schema", input.schema.json)]

def Function.toJson (f : Function) : Json :=
  .object
    [("input", .array (f.inputs.map Input.toJson)),
      ("computation", .array (Statement.listToJson f.body))]

def NameSet.toJson (s : NameSet) : Json :=
  .array (s.names.map Json.string)

/-- The object of a map, each value written by `write`. -/
def NameMap.toJson {α : Type} (write : α → Json) (m : NameMap α) : Json :=
  .object (m.entries.map fun entry => (entry.1, write entry.2))

/-- The globals are left out when there are none. -/
def Program.toJson (p : Program) : Json :=
  let globals := if p.globals.isEmpty then [] else [("globals", p.globals.toJson)]
  .object
    (("schema_version", .string p.version) :: globals ++
      [("functions", p.functions.toJson Function.toJson)])

end StoredProcedure
