import StoredProcedure.Analysis.Action
import StoredProcedure.Lowering
import StoredProcedure.Scope
import StoredProcedure.Syntax.Choice

/-!
The summary of a function: its actions on global objects in the order of evaluation, every branch
and every loop body being visited once.

A change of a store depends on the stores that its keys and values were computed from, directly or
through variables, and on the stores that any condition or loop before it depended on, because they
decided that it is reached.
-/

namespace StoredProcedure

/-- The variables in scope, each with the stores that its value depends on. -/
abbrev Taints := Scope NameSet

/-- The stores that a variable depends on. -/
def Taints.resolve (taints : Taints) (name : String) : Except Fault NameSet :=
  match taints.value? name with
  | some taint => .ok taint
  | none => .error (.unknownVariable name)

namespace Expr

mutual
/-- What evaluating an expression reads. -/
def reads (taints : Taints) : Expr → Except Fault Reads
  | .bool _ | .int _ | .double _ | .string _ | .nothing => .ok .none
  | .object fields => readsFields taints fields
  | .comparison _ left right => do
      let left ← left.reads taints
      return left ++ (← right.reads taints)
  | .arithmetic _ left right => do
      let left ← left.reads taints
      return left ++ (← right.reads taints)
  | .logic _ left right => do
      let left ← left.reads taints
      return left ++ (← right.reads taints)
  | .negation value => value.reads taints
  | .typeOf value => value.reads taints
  | .hasType value _ => value.reads taints
  | .saved name => do return ⟨[], ← taints.resolve name⟩
  | .selection root level => do
      let root ← root.reads taints
      return root ++ (← readsList taints level)
  | .fieldExists value field => do
      let value ← value.reads taints
      return value ++ (← field.reads taints)
  | .keys source => source.reads taints
  | .array values => readsList taints values
  | .call _ args => readsList taints args
  | .role _ state => readsOption taints state
  | .globalObject name => .error (.globalNotLowered name)
  | .wholeObject store => .ok (Reads.none.store store)
  | .keyOfObject store key => do return (← readsList taints key).store store
  | .keyExists store key => do return (← key.reads taints).store store
  | .keysOfObject store => .ok (Reads.none.store store)
termination_by structural e => e

def readsList (taints : Taints) : List Expr → Except Fault Reads
  | [] => .ok .none
  | e :: rest => do
      let first ← e.reads taints
      return first ++ (← readsList taints rest)
termination_by structural es => es

def readsFields (taints : Taints) : List (Expr × Expr) → Except Fault Reads
  | [] => .ok .none
  | (key, value) :: rest => do
      let key ← key.reads taints
      let value ← value.reads taints
      return key ++ value ++ (← readsFields taints rest)
termination_by structural fields => fields

def readsOption (taints : Taints) : Option Expr → Except Fault Reads
  | none => .ok .none
  | some e => e.reads taints
termination_by structural o => o
end

end Expr

/-- The state of a summary: the variables in scope, the stores on which it depends that execution
comes here, and the actions so far. -/
structure Flow where
  taints : Taints
  path : NameSet
  actions : List Action

namespace Flow

/-- Expressions are evaluated. -/
def read (flow : Flow) (reads : Reads) : Flow :=
  { flow with actions := flow.actions ++ reads.actions }

/-- A condition or the source of a loop decides what is run from here on. -/
def guard (flow : Flow) (reads : Reads) : Flow :=
  { flow.read reads with path := flow.path ∪ reads.taint }

/-- A store is changed by what keys and values were read. -/
def write (flow : Flow) (store : String) (reads : Reads) : Flow :=
  { flow with
    actions := flow.actions ++ reads.actions ++ [.mutate store (reads.taint ∪ flow.path)] }

def declare (flow : Flow) (name : String) (taint : NameSet) : Flow :=
  { flow with taints := flow.taints.add name taint }

def enter (flow : Flow) : Flow :=
  { flow with taints := flow.taints.enter }

def leave (flow : Flow) : Flow :=
  { flow with taints := flow.taints.leave }

/-- A variable is changed. If only a part of it is, it still depends on what it depended on. -/
def change (flow : Flow) (name : String) (whole : Bool) (reads : Reads) : Flow :=
  let flow := flow.read reads
  { flow with
    taints := flow.taints.modify name fun taint =>
      if whole then reads.taint else taint ∪ reads.taint }

end Flow

/-- What an edit reads beyond the place where it is made. -/
def Edit.inputs : Edit → List Expr
  | .push values => values
  | .deleteField => []
  | .set value => [value]

/-- Does the edit replace the whole variable if it is made at `level`? -/
def Edit.isWhole (level : List Expr) : Edit → Bool
  | .push _ | .deleteField => false
  | .set _ => level.isEmpty

namespace Statement

/-- An update of a variable, which has to be in scope. -/
def summarizeUpdate (flow : Flow) (name : String) (level : List Expr) (edit : Edit) :
    Except Fault Flow := do
  let _ ← flow.taints.resolve name
  if let .deleteField := edit then Lowering.requireField name level
  let reads ← Expr.readsList flow.taints (level ++ edit.inputs)
  return flow.change name (edit.isWhole level) reads

/-- The condition of a branch, if it has one. -/
def summarizeGuard (flow : Flow) : Guard → Except Fault Flow
  | .when condition => do return flow.guard (← condition.reads flow.taints)
  | .otherwise | .lastly => .ok flow

mutual
def summarize (flow : Flow) : Statement → Except Fault Flow
  | .ret value => do return flow.read (← Expr.readsOption flow.taints value)
  | .save name value => do
      let reads ← value.reads flow.taints
      return (flow.read reads).declare name reads.taint
  | .update (.globalObject name) _ _ => .error (.updateNotLowered name)
  | .update (.saved name) level edit => summarizeUpdate flow name level edit
  | .choice branches => do
      let _ ← Choice.shape branches
      summarizeBranches flow branches
  | .forEach source item body => do
      let reads ← source.reads flow.taints
      let flow ← summarizeBody ((flow.guard reads).enter.declare item reads.taint) body
      return flow.leave
  | .call _ args => do return flow.read (← Expr.readsList flow.taints args)
  | .noop => .ok flow
  | .setKey store key value => do
      Lowering.requireKey store key
      return flow.write store (← Expr.readsList flow.taints (key ++ [value]))
  | .deleteKey store key => do
      Lowering.requireKey store key
      return flow.write store (← Expr.readsList flow.taints key)
  | .pushAtKey store key values => do
      Lowering.requireKey store key
      return flow.write store (← Expr.readsList flow.taints (key ++ values))
termination_by structural s => s

def summarizeBody (flow : Flow) : List Statement → Except Fault Flow
  | [] => .ok flow
  | s :: rest => do
      let flow ← s.summarize flow
      summarizeBody flow rest
termination_by structural body => body

/-- Every branch is visited, each body in a scope of its own. -/
def summarizeBranches (flow : Flow) : List (Guard × List Statement) → Except Fault Flow
  | [] => .ok flow
  | (guard, body) :: rest => do
      let flow ← summarizeGuard flow guard
      let flow ← summarizeBody flow.enter body
      summarizeBranches flow.leave rest
termination_by structural branches => branches
end

end Statement

namespace Function

/-- The flow at the start of a function: its inputs depend on no store. -/
def initialFlow (f : Function) : Flow where
  taints := f.inputs.foldl (fun taints input => taints.add input.name .empty) Scope.empty
  path := .empty
  actions := []

/-- The actions of a function. -/
def summarize (f : Function) : Except Fault (List Action) := do
  return (← Statement.summarizeBody f.initialFlow f.body).actions

end Function

end StoredProcedure
