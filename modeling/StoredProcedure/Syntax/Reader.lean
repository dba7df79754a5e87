import StoredProcedure.Syntax.Fields
import StoredProcedure.Syntax.Program

namespace StoredProcedure

def nestingLimit : Nat := 127

def Comparison.ofSign? : String → Option Comparison
  | "==" => some .equal
  | "!=" => some .notEqual
  | "<" => some .less
  | ">" => some .greater
  | "<=" => some .lessEqual
  | ">=" => some .greaterEqual
  | _ => none

def Arithmetic.ofSign? : String → Option Arithmetic
  | "+" => some .add
  | "-" => some .subtract
  | "*" => some .multiply
  | "/" => some .divide
  | _ => none

def Logic.ofSign? : String → Option Logic
  | "and" => some .and
  | "or" => some .or
  | _ => none

/-- The two values of a field of an object expression. -/
def Expr.field? (read : Json → Option Expr) (j : Json) : Option (Expr × Expr) := do
  let [key, value] ← (← j.fields?).all? ["key", "value"] | none
  return (← read key, ← read value)

/-- An expression from a value that nests at most `levels` deep. -/
def Expr.ofJson? : (levels : Nat) → Json → Option Expr
  | 0, _ => none
  | levels + 1, j => do
      let (kind, fields) ← j.node? Kind.expressions
      match kind with
      | .bool =>
          let [value] ← fields.all? ["value"] | none
          return .bool (← value.bool?)
      | .int =>
          let [value] ← fields.all? ["value"] | none
          return .int (← value.int64?)
      | .double =>
          let [value] ← fields.all? ["value"] | none
          return .double (← value.double?)
      | .string =>
          let [value] ← fields.all? ["value"] | none
          return .string (← value.string?)
      | .nothing =>
          let [] ← fields.all? [] | none
          return .nothing
      | .object =>
          let [parts] ← fields.all? ["fields"] | none
          return .object (← parts.listOf? (Expr.field? (Expr.ofJson? levels)))
      | .comparison =>
          let [sign, left, right] ← fields.all? ["sign", "left", "right"] | none
          return .comparison (← Comparison.ofSign? (← sign.sign?))
            (← Expr.ofJson? levels left) (← Expr.ofJson? levels right)
      | .arithmetic =>
          let [sign, left, right] ← fields.all? ["sign", "left", "right"] | none
          return .arithmetic (← Arithmetic.ofSign? (← sign.sign?))
            (← Expr.ofJson? levels left) (← Expr.ofJson? levels right)
      | .logic =>
          let [sign, left, right] ← fields.all? ["sign", "left", "right"] | none
          return .logic (← Logic.ofSign? (← sign.sign?))
            (← Expr.ofJson? levels left) (← Expr.ofJson? levels right)
      | .negation =>
          let [value] ← fields.all? ["value"] | none
          return .negation (← Expr.ofJson? levels value)
      | .typeOf =>
          let [value] ← fields.all? ["value"] | none
          return .typeOf (← Expr.ofJson? levels value)
      | .hasType =>
          let [value, type] ← fields.all? ["value", "type"] | none
          return .hasType (← Expr.ofJson? levels value) (← type.string?)
      | .saved =>
          let [name] ← fields.all? ["arg"] | none
          return .saved (← name.string?)
      | .selection =>
          let [some root, level] ← fields.values? ["root", "level"] | none
          return .selection (← Expr.ofJson? levels root)
            (← Json.listOrMissing? (Expr.ofJson? levels) level)
      | .fieldExists =>
          let [value, field] ← fields.all? ["value", "field"] | none
          return .fieldExists (← Expr.ofJson? levels value) (← Expr.ofJson? levels field)
      | .keys =>
          let [source] ← fields.all? ["from"] | none
          return .keys (← Expr.ofJson? levels source)
      | .array =>
          let [values] ← fields.all? ["values"] | none
          return .array (← values.listOf? (Expr.ofJson? levels))
      | .call =>
          let [some function, args] ← fields.values? ["function_name", "args"] | none
          return .call (← function.string?) (← Json.listOrMissing? (Expr.ofJson? levels) args)
      | .role =>
          let [some schema, state] ← fields.values? ["role", "state"] | none
          return .role (Datum.ofJson schema) (← Json.partOrMissing? (Expr.ofJson? levels) state)
      | .globalObject =>
          let [name] ← fields.all? ["name"] | none
          return .globalObject (← name.string?)
      | .wholeObject =>
          let [store] ← fields.all? ["name"] | none
          return .wholeObject (← store.string?)
      | .keyOfObject =>
          let [store, key] ← fields.all? ["obj", "key"] | none
          return .keyOfObject (← store.string?) (← key.listOf? (Expr.ofJson? levels))
      | .keyExists =>
          let [store, key] ← fields.all? ["obj", "key"] | none
          return .keyExists (← store.string?) (← Expr.ofJson? levels key)
      | .keysOfObject =>
          let [store] ← fields.all? ["obj"] | none
          return .keysOfObject (← store.string?)
      | _ => none

def Target.ofJson? (j : Json) : Option Target := do
  let (kind, fields) ← j.node? Kind.targets
  match kind with
  | .saved =>
      let [name] ← fields.all? ["arg"] | none
      return .saved (← name.string?)
  | .globalObject =>
      let [name] ← fields.all? ["name"] | none
      return .globalObject (← name.string?)
  | _ => none

/-- One of the two kinds of edits that are not values. -/
def Edit.ofNode? (levels : Nat) (j : Json) : Option Edit := do
  let (kind, fields) ← j.node? Kind.edits
  match kind with
  | .push =>
      let [values] ← fields.all? ["values"] | none
      return .push (← values.listOf? (Expr.ofJson? levels))
  | .deleteField =>
      let [] ← fields.all? [] | none
      return .deleteField
  | _ => none

/-- What cannot be read as another edit is the value to be set. -/
def Edit.ofJson? (levels : Nat) (j : Json) : Option Edit :=
  Edit.ofNode? levels j <|> (Expr.ofJson? levels j).map .set

/-- A branch whose statements are read by `read`. -/
def Branch.ofJson? (levels : Nat) (read : Json → Option Statement) (j : Json) : Option Branch := do
  let (kind, fields) ← j.node? Kind.branches
  match kind with
  | .conditional =>
      let [condition, body] ← fields.all? ["cond", "do"] | none
      return (.when (← Expr.ofJson? levels condition), ← body.listOf? read)
  | .otherwise =>
      let [body] ← fields.all? ["do"] | none
      return (.otherwise, ← body.listOf? read)
  | .lastly =>
      let [body] ← fields.all? ["do"] | none
      return (.lastly, ← body.listOf? read)
  | _ => none

/-- A statement from a value that nests at most `levels` deep. -/
def Statement.ofJson? : (levels : Nat) → Json → Option Statement
  | 0, _ => none
  | levels + 1, j => do
      let (kind, fields) ← j.node? Kind.statements
      match kind with
      | .ret =>
          let [value] ← fields.values? ["value"] | none
          return .ret (← Json.partOrMissing? (Expr.ofJson? levels) value)
      | .save =>
          let [name, value] ← fields.all? ["name", "value"] | none
          return .save (← name.string?) (← Expr.ofJson? levels value)
      | .update =>
          let [some target, level, some edit] ← fields.values? ["root", "level", "operation"]
            | none
          return .update (← Target.ofJson? target)
            (← Json.listOrMissing? (Expr.ofJson? levels) level) (← Edit.ofJson? levels edit)
      | .choice =>
          let [branches] ← fields.all? ["conditionally"] | none
          return .choice (← branches.listOf? (Branch.ofJson? levels (Statement.ofJson? levels)))
      | .forEach =>
          let [source, item, body] ← fields.all? ["target", "arg", "do"] | none
          return .forEach (← Expr.ofJson? levels source) (← item.string?)
            (← body.listOf? (Statement.ofJson? levels))
      | .call =>
          let [some function, args] ← fields.values? ["function_name", "args"] | none
          return .call (← function.string?) (← Json.listOrMissing? (Expr.ofJson? levels) args)
      | .noop =>
          let [] ← fields.all? [] | none
          return .noop
      | .setKey =>
          let [store, key, value] ← fields.all? ["obj", "key", "value"] | none
          return .setKey (← store.string?) (← key.listOf? (Expr.ofJson? levels))
            (← Expr.ofJson? levels value)
      | .deleteKey =>
          let [store, key] ← fields.all? ["obj", "key"] | none
          return .deleteKey (← store.string?) (← key.listOf? (Expr.ofJson? levels))
      | .pushAtKey =>
          let [store, key, values] ← fields.all? ["obj", "key", "values"] | none
          return .pushAtKey (← store.string?) (← key.listOf? (Expr.ofJson? levels))
            (← values.listOf? (Expr.ofJson? levels))
      | _ => none

/-- The value of a node that is no part of another node; its kind has to be named. -/
def Document.nodeJson? (levels : Nat) (d : Document) : Option Json := do
  let j ← d.json? levels
  let _ ← j.node? []
  return j

/-- An expression that is a part of a document, `levels` levels being left. -/
def Expr.ofDocument? (levels : Nat) (d : Document) : Option Expr := do
  Expr.ofJson? levels (← d.nodeJson? levels)

def Statement.ofDocument? (levels : Nat) (d : Document) : Option Statement := do
  Statement.ofJson? levels (← d.nodeJson? levels)

def Datum.ofDocument? (levels : Nat) (d : Document) : Option Datum :=
  (d.json? levels).map Datum.ofJson

/-- A list of statements. -/
def Statement.listOfDocument? (levels : Nat) (d : Document) : Option (List Statement) :=
  d.listOf? (Statement.ofDocument? (levels - 1))

def Input.ofDocument? (levels : Nat) (d : Document) : Option Input := do
  let [name, schema] ← (← d.fields?).all? ["name", "schema"] | none
  return ⟨← name.text?, ← Datum.ofDocument? (levels - 1) schema⟩

def Function.ofDocument? (levels : Nat) (d : Document) : Option Function := do
  let [inputs, some body] ← (← d.fields?).values? ["input", "computation"] | none
  let inputs ← match inputs with
    | none => some []
    | some inputs => inputs.listOf? (Input.ofDocument? (levels - 2))
  return ⟨inputs, ← Statement.listOfDocument? (levels - 1) body⟩

/-- The program of a document, of whatever version. -/
def Program.ofDocument? (d : Document) : Option Program := do
  let [version, globals, some functions] ←
    (← d.fields?).values? ["schema_version", "globals", "functions"] | none
  let version ← match version with
    | none => some Program.supportedVersion
    | some version => version.text?
  let globals ← match globals with
    | none => some []
    | some globals => globals.listOf? Document.text?
  return ⟨version, NameSet.ofList globals,
    ← functions.mapOf? (Function.ofDocument? (nestingLimit - 2))⟩

end StoredProcedure
