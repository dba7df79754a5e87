import StoredProcedure.Fault

/-!
Rewriting of programs. A rewriter is a set of rules for the nodes whose shape may change; all other
nodes are rebuilt around their rewritten parts. A rule sees each part of its node as it stands and
together with what becomes of it, so it may also discard or inspect a part. The first fault in the
order of the parts is the fault of the whole.

The rules that are given by default rebuild their nodes too, but refuse global objects. A rewriter
that has no rule for some position of a global object therefore cannot leave one behind there.
-/

namespace StoredProcedure

/-- A part of a node: as it stands, and what becomes of it. -/
structure Part where
  source : Expr
  result : Except Fault Expr

/-- What becomes of all parts, or the first fault. -/
def Part.results (parts : List Part) : Except Fault (List Expr) :=
  parts.mapM Part.result

/-- What becomes of the parts of an edit. -/
inductive EditResult where
  | push (values : Except Fault (List Expr))
  | deleteField
  | set (value : Except Fault Expr)

structure Rewriter where
  /-- Any expression, with what its own rule makes of it. -/
  expr : Expr → Except Fault Expr → Except Fault Expr := fun _ walked => walked
  globalObject : String → Except Fault Expr := fun name => .error (.globalWithoutRule name)
  selection : Part → List Part → Except Fault Expr := fun root level => do
    return .selection (← root.result) (← Part.results level)
  fieldExists : Part → Part → Except Fault Expr := fun value field => do
    return .fieldExists (← value.result) (← field.result)
  keys : Part → Except Fault Expr := fun source => do
    return .keys (← source.result)
  array : List Part → Except Fault Expr := fun values => do
    return .array (← Part.results values)
  /-- The values of a push, be it to a variable or to a store. -/
  pushed : List Part → Except Fault (List Expr) := Part.results
  update : Target → List Part → EditResult → Except Fault Statement := fun target level edit =>
    match target with
    | .globalObject name => .error (.updateWithoutRule name)
    | .saved name => do
        let level ← Part.results level
        match edit with
        | .push values => return .update (.saved name) level (.push (← values))
        | .deleteField => return .update (.saved name) level .deleteField
        | .set value => return .update (.saved name) level (.set (← value))

namespace Rewriter

/-- The rewriter of which every rule is the default. -/
def identity : Rewriter := {}

/-- Renames variables where they are read. Declarations and targets of updates stay as they are. -/
def renameSaved (rename : String → String) : Rewriter where
  expr := fun source walked =>
    match source with
    | .saved name => .ok (.saved (rename name))
    | _ => walked

/-- Replaces each global object that stands for a value by the whole of its store. -/
def wholeGlobals : Rewriter where
  globalObject := fun name => .ok (.wholeObject name)

/-- An expression as a part, given what its own rule makes of it. -/
def part (r : Rewriter) (source : Expr) (walked : Except Fault Expr) : Part :=
  ⟨source, r.expr source walked⟩

mutual
/-- What its own rule makes of an expression. -/
def walk (r : Rewriter) : Expr → Except Fault Expr
  | .bool value => .ok (.bool value)
  | .int value => .ok (.int value)
  | .double value => .ok (.double value)
  | .string value => .ok (.string value)
  | .nothing => .ok .nothing
  | .object fields => do return .object (← r.walkFields fields)
  | .comparison sign left right => do
      let left ← r.expr left (r.walk left)
      let right ← r.expr right (r.walk right)
      return .comparison sign left right
  | .arithmetic sign left right => do
      let left ← r.expr left (r.walk left)
      let right ← r.expr right (r.walk right)
      return .arithmetic sign left right
  | .logic sign left right => do
      let left ← r.expr left (r.walk left)
      let right ← r.expr right (r.walk right)
      return .logic sign left right
  | .negation value => do return .negation (← r.expr value (r.walk value))
  | .typeOf value => do return .typeOf (← r.expr value (r.walk value))
  | .hasType value type => do return .hasType (← r.expr value (r.walk value)) type
  | .saved name => .ok (.saved name)
  | .selection root level => r.selection (r.part root (r.walk root)) (r.parts level)
  | .fieldExists value field =>
      r.fieldExists (r.part value (r.walk value)) (r.part field (r.walk field))
  | .keys source => r.keys (r.part source (r.walk source))
  | .array values => r.array (r.parts values)
  | .call function args => do return .call function (← Part.results (r.parts args))
  | .role schema state => do return .role schema (← r.walkOption state)
  | .globalObject name => r.globalObject name
  | .wholeObject store => .ok (.wholeObject store)
  | .keyOfObject store key => do return .keyOfObject store (← Part.results (r.parts key))
  | .keyExists store key => do return .keyExists store (← r.expr key (r.walk key))
  | .keysOfObject store => .ok (.keysOfObject store)
termination_by structural e => e

def parts (r : Rewriter) : List Expr → List Part
  | [] => []
  | e :: rest => r.part e (r.walk e) :: r.parts rest
termination_by structural es => es

def walkFields (r : Rewriter) : List (Expr × Expr) → Except Fault (List (Expr × Expr))
  | [] => .ok []
  | (key, value) :: rest => do
      let key ← r.expr key (r.walk key)
      let value ← r.expr value (r.walk value)
      return (key, value) :: (← r.walkFields rest)
termination_by structural fields => fields

def walkOption (r : Rewriter) : Option Expr → Except Fault (Option Expr)
  | none => .ok none
  | some e => do return some (← r.expr e (r.walk e))
termination_by structural o => o
end

/-- The rewritten expression. -/
def rewriteExpr (r : Rewriter) (e : Expr) : Except Fault Expr :=
  r.expr e (r.walk e)

def rewriteExprs (r : Rewriter) (es : List Expr) : Except Fault (List Expr) :=
  Part.results (r.parts es)

def rewriteEdit (r : Rewriter) : Edit → EditResult
  | .push values => .push (r.pushed (r.parts values))
  | .deleteField => .deleteField
  | .set value => .set (r.rewriteExpr value)

def rewriteGuard (r : Rewriter) : Guard → Except Fault Guard
  | .when condition => do return .when (← r.rewriteExpr condition)
  | .otherwise => .ok .otherwise
  | .lastly => .ok .lastly

mutual
/-- The rewritten statement. -/
def rewrite (r : Rewriter) : Statement → Except Fault Statement
  | .ret value => do return .ret (← r.walkOption value)
  | .save name value => do return .save name (← r.rewriteExpr value)
  | .update target level edit => r.update target (r.parts level) (r.rewriteEdit edit)
  | .choice branches => do return .choice (← r.rewriteBranches branches)
  | .forEach source item body => do
      let source ← r.rewriteExpr source
      return .forEach source item (← r.rewriteBody body)
  | .call function args => do return .call function (← r.rewriteExprs args)
  | .noop => .ok .noop
  | .setKey store key value => do
      let key ← r.rewriteExprs key
      return .setKey store key (← r.rewriteExpr value)
  | .deleteKey store key => do return .deleteKey store (← r.rewriteExprs key)
  | .pushAtKey store key values => do
      let key ← r.rewriteExprs key
      return .pushAtKey store key (← r.pushed (r.parts values))
termination_by structural s => s

/-- The rewritten statements, in order. -/
def rewriteBody (r : Rewriter) : List Statement → Except Fault (List Statement)
  | [] => .ok []
  | s :: rest => do
      let s ← r.rewrite s
      return s :: (← r.rewriteBody rest)
termination_by structural body => body

def rewriteBranches (r : Rewriter) :
    List (Guard × List Statement) → Except Fault (List (Guard × List Statement))
  | [] => .ok []
  | (guard, body) :: rest => do
      let guard ← r.rewriteGuard guard
      let body ← r.rewriteBody body
      return (guard, body) :: (← r.rewriteBranches rest)
termination_by structural branches => branches
end

end Rewriter

end StoredProcedure
