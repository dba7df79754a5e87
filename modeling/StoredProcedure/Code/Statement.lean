import StoredProcedure.Code.Expr
import StoredProcedure.Lowering
import StoredProcedure.Syntax.Choice

/-!
The code of statements and functions.

Wherever an instruction runs, the heap holds exactly the variables in scope there: saving a variable
appends it, and the code of a scope ends by dropping what the scope declared. So the scope after a
statement is known when the statement is compiled, and is returned along with its code.
-/

namespace StoredProcedure

/-- Drops the variables of the innermost scope, if there are any. -/
def Slots.truncation (slots : Slots) : Code :=
  if slots.declared = 0 then [] else [.truncateHeap slots.declared]

/-- Appends each value to the array in a slot, one by one. -/
def Expr.compileAppends (slots : Slots) (slot : Nat) : List Expr → Except Fault Code
  | [] => .ok []
  | e :: rest => do
      let code ← e.compile slots
      return code ++ .stackToHeapArray slot :: (← compileAppends slots slot rest)

/-- An update of the variable in a slot, at the place that `level` leads to. -/
def Edit.compile (slots : Slots) (name : String) (slot : Nat) (level : List Expr) :
    Edit → Except Fault Code
  | .push values =>
      if level.isEmpty then Expr.compileAppends slots slot values
      else do
        let path ← Expr.compileList slots level
        let values ← Expr.compileArray slots values
        return path ++ values ++ [.pushSavedField level.length slot]
  | .deleteField => do
      Lowering.requireField name level
      return (← Expr.compileList slots level) ++ [.deleteSavedField level.length slot]
  | .set value =>
      if level.isEmpty then do
        return (← value.compile slots) ++ [.overwriteHeap slot]
      else do
        let path ← Expr.compileList slots level
        let value ← value.compile slots
        return path ++ value ++ [.setSavedField level.length slot]

/-- The code that a guard puts before the code of a body: a condition that does not hold leads to
the end of the jump after the body. -/
def Guard.compile (slots : Slots) (body : Code) : Guard → Except Fault Code
  | .when condition => do
      return (← condition.compile slots) ++ [.negate, .skipIf (body.length + 1)]
  | .otherwise | .lastly => .ok []

/-- A loop over the array on top: each round takes the last element off, makes it a variable, runs
the body and drops `declared` variables; the loop ends when the array is empty. -/
def Code.loop (body : Code) (declared : Nat) : Code :=
  let iteration := .popArray :: .stackToHeap :: body ++ [.truncateHeap declared]
  [.arrayLength, Code.zero, .equal, .skipIf (iteration.length + 1)] ++ iteration ++
    [.jumpBack (iteration.length + 4), .popStack]

namespace Statement

mutual
/-- The code of a statement, and the scope after it. -/
def compile (slots : Slots) : Statement → Except Fault (Code × Slots)
  | .ret (some value) => do return ((← value.compile slots) ++ [.returnTop], slots)
  | .ret none => .ok ([.returnVoid], slots)
  | .save name value => do
      return ((← value.compile slots) ++ [.stackToHeap], slots.add name ())
  | .update (.globalObject name) _ _ => .error (.updateNotLowered name)
  | .update (.saved name) level edit => do
      let slot ← slots.resolve name
      return (← edit.compile slots name slot level, slots)
  | .choice branches => do
      let _ ← Choice.shape branches
      let (arms, last) ← compileBranches slots branches
      return (arms ++ last, slots)
  | .forEach source item body => do
      let source ← source.compile slots
      let (body, inner) ← compileBody (slots.enter.add item ()) body
      return (source ++ Code.loop body inner.declared, slots)
  | .call function args => do
      return ((← Expr.compileList slots args) ++ [.invoke function args.length, .popStack], slots)
  | .noop => .ok ([.noop], slots)
  | .setKey store [] _ => .error (.keyMissing store)
  | .setKey store (first :: rest) value => do
      let nested ← Expr.compileList slots rest
      let value ← value.compile slots
      let first ← first.compile slots
      return (Code.setKey store first rest.length nested value, slots)
  | .deleteKey store [] => .error (.keyMissing store)
  | .deleteKey store (first :: rest) => do
      let nested ← Expr.compileList slots rest
      let first ← first.compile slots
      return (Code.deleteKey store first rest.length nested, slots)
  | .pushAtKey store [] _ => .error (.keyMissing store)
  | .pushAtKey store (first :: rest) values => do
      let nested ← Expr.compileList slots rest
      let values ← Expr.compileArray slots values
      let first ← first.compile slots
      return (Code.pushAtKey store first rest.length nested values, slots)
termination_by structural s => s

/-- The code of statements that are run one after the other, and the scope after them. -/
def compileBody (slots : Slots) : List Statement → Except Fault (Code × Slots)
  | [] => .ok ([], slots)
  | s :: rest => do
      let (code, slots) ← s.compile slots
      let (codes, slots) ← compileBody slots rest
      return (code ++ codes, slots)
termination_by structural body => body

/-- The code of the arms of a choice and of what is run last. Each arm ends with a jump over the
arms after it. Bodies have scopes of their own. -/
def compileBranches (slots : Slots) :
    List (Guard × List Statement) → Except Fault (Code × Code)
  | [] => .ok ([], [.noop])
  | (.lastly, body) :: _ => do
      let (code, inner) ← compileBody slots.enter body
      return ([], code ++ inner.truncation)
  | (guard, body) :: rest => do
      let (code, inner) ← compileBody slots.enter body
      let code := code ++ inner.truncation
      let test ← guard.compile slots code
      let (arms, last) ← compileBranches slots rest
      return (test ++ code ++ .jumpForward arms.length :: arms, last)
termination_by structural branches => branches
end

end Statement

namespace Function

/-- Checks an input in a slot against its schema. -/
def inputCheck (input : Input) (slot : Nat) : Code :=
  [.enforceSchema input.schema slot, .skipIf 1, .raise "invalid input"]

/-- Declares the inputs and checks them, from a scope on. -/
def prologue : Slots → List Input → Code × Slots
  | slots, [] => ([], slots)
  | slots, input :: rest =>
      let (code, inner) := prologue (slots.add input.name ()) rest
      (inputCheck input slots.nextSlot ++ code, inner)

/-- The code of a function. It starts with exactly the inputs on the heap. -/
def compile (f : Function) : Except Fault Code := do
  let (checks, slots) := prologue Scope.empty f.inputs
  let (code, _) ← Statement.compileBody slots f.body
  return .assertHeapLength f.inputs.length :: checks ++ code

end Function

end StoredProcedure
