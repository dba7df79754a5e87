import StoredProcedure.Proofs.Machine
import StoredProcedure.Scope
import StoredProcedure.Syntax.Program

/-!
The meaning of a function, told by its syntax alone: values belong to names, scopes are those of the
text, and there is neither a stack nor a slot nor a jump.

The language is covered as far as the machine is: literals, comparisons, sums, truth values,
variables, arrays and calls; and returning, saving, replacing a variable or pushing to it, choices,
loops and calls. Evaluation fails, and gives none, at any other node that it meets and where a value
is of the wrong kind or an integer overflows.
-/

namespace StoredProcedure

/-- The variables in scope with their values. -/
abbrev Env := Scope Datum

/-- Does a comparison hold? Equality is for all values, order for integers. -/
def Comparison.holds (left right : Datum) : Comparison → Option Bool
  | .equal => some (left.same right)
  | .notEqual => some (!left.same right)
  | .less => do return decide ((← left.int?) < (← right.int?))
  | .greater => do return decide ((← left.int?) > (← right.int?))
  | .lessEqual => do return decide ((← left.int?) ≤ (← right.int?))
  | .greaterEqual => do return decide ((← left.int?) ≥ (← right.int?))

def Logic.apply (left right : Bool) : Logic → Bool
  | .and => left && right
  | .or => left || right

namespace Expr

mutual
/-- The value of an expression, and the calls that are made for it. Operands are evaluated from left
to right, and always both. A call gives null. -/
def eval (env : Env) : Expr → Option (Datum × List Call)
  | .bool value => some (.bool value, [])
  | .int value => some (.int (WordInt.ofInt64 value), [])
  | .double value => some (.double value, [])
  | .string value => some (.string value, [])
  | .nothing => some (.null, [])
  | .comparison sign left right => do
      let (left, before) ← left.eval env
      let (right, after) ← right.eval env
      return (.bool (← sign.holds left right), before ++ after)
  | .arithmetic .add left right => do
      let (left, before) ← left.eval env
      let (right, after) ← right.eval env
      return (← left.add right, before ++ after)
  | .logic sign left right => do
      let (left, before) ← left.eval env
      let (right, after) ← right.eval env
      return (.bool (sign.apply (← left.bool?) (← right.bool?)), before ++ after)
  | .negation value => do
      let (value, calls) ← value.eval env
      return (.bool (!(← value.bool?)), calls)
  | .saved name => do return (← env.value? name, [])
  | .selection root [] => root.eval env
  | .array values => do
      let (items, calls) ← evalList env values
      return (.array items, calls)
  | .call function args => do
      let (args, calls) ← evalList env args
      return (.null, calls ++ [⟨function, args⟩])
  | _ => none
termination_by structural e => e

def evalList (env : Env) : List Expr → Option (List Datum × List Call)
  | [] => some ([], [])
  | e :: rest => do
      let (value, before) ← e.eval env
      let (values, after) ← evalList env rest
      return (value :: values, before ++ after)
termination_by structural es => es
end

/-- Evaluates expressions one by one, and pushes each value to an array variable before the next is
evaluated. -/
def evalAppends (env : Env) (name : String) : List Expr → Option (Env × List Call)
  | [] => some (env, [])
  | e :: rest => do
      let (value, before) ← e.eval env
      let items ← (← env.value? name).items?
      let (env, after) ← evalAppends (env.modify name fun _ => .array (items ++ [value])) name rest
      return (env, before ++ after)

end Expr

/-- An update of a whole variable. -/
def Edit.eval (env : Env) (name : String) : Edit → Option (Env × List Call)
  | .push values => Expr.evalAppends env name values
  | .deleteField => none
  | .set value => do
      let (value, calls) ← value.eval env
      return (env.modify name fun _ => value, calls)

/-- How the execution of statements ends: they are all done, or the function has returned. -/
inductive Completion where
  | done (env : Env)
  | returned (value : Datum)

/-- A completion and the calls that were made, or none if execution fails. -/
abbrev Execution := Option (Completion × List Call)

namespace Execution

/-- Goes on after some calls. -/
def after (calls : List Call) (e : Execution) : Execution := do
  let (completion, more) ← e
  return (completion, calls ++ more)

/-- Goes on unless the function has returned. -/
def andThen (first : Execution) (next : Env → Execution) : Execution := do
  let (completion, calls) ← first
  match completion with
  | .done env => (next env).after calls
  | .returned value => return (.returned value, calls)

/-- Closes the scope that was opened before. -/
def leave (body : Execution) : Execution :=
  body.andThen fun env => some (.done env.leave, [])

end Execution

/-- Executes a body for each item in turn, each time in a scope of its own. -/
def Env.rounds (item : String) (body : Env → Execution) : List Datum → Env → Execution
  | [], env => some (.done env, [])
  | value :: rest, env =>
      (body (env.enter.add item value)).leave.andThen (rounds item body rest)

namespace Statement

mutual
/-- Executes a statement. A loop is over the array as it was at the start, from the last item to the
first; the length of the array has to be an integer. -/
def eval (env : Env) : Statement → Execution
  | .ret (some value) => do
      let (value, calls) ← value.eval env
      return (.returned value, calls)
  | .ret none => some (.returned .null, [])
  | .save name value => do
      let (value, calls) ← value.eval env
      return (.done (env.add name value), calls)
  | .update (.saved name) [] edit => do
      let (env, calls) ← edit.eval env name
      return (.done env, calls)
  | .choice branches => evalBranches env branches
  | .forEach source item body => do
      let (array, calls) ← source.eval env
      let items ← array.items?
      let _ ← Datum.ofInt? items.length
      (Env.rounds item (fun env => evalBody env body) items.reverse env).after calls
  | .call function args => do
      let (args, calls) ← Expr.evalList env args
      return (.done env, calls ++ [⟨function, args⟩])
  | .noop => some (.done env, [])
  | _ => none
termination_by structural s => s

/-- Executes statements one after the other. -/
def evalBody (env : Env) : List Statement → Execution
  | [] => some (.done env, [])
  | s :: rest => (s.eval env).andThen fun env => evalBody env rest
termination_by structural body => body

/-- Executes the first branch whose condition holds, or the one for when none does, and then the one
that is always run last. -/
def evalBranches (env : Env) : List (Guard × List Statement) → Execution
  | [] => some (.done env, [])
  | (.when condition, body) :: rest => do
      let (value, calls) ← condition.eval env
      if ← value.bool? then
        ((evalBody env.enter body).leave.andThen fun env => evalLast env rest).after calls
      else (evalBranches env rest).after calls
  | (.otherwise, body) :: rest =>
      (evalBody env.enter body).leave.andThen fun env => evalLast env rest
  | (.lastly, body) :: _ => (evalBody env.enter body).leave
termination_by structural branches => branches

/-- Executes only the branch that is always run last. -/
def evalLast (env : Env) : List (Guard × List Statement) → Execution
  | [] => some (.done env, [])
  | (.lastly, body) :: _ => (evalBody env.enter body).leave
  | (.when _, _) :: rest => evalLast env rest
  | (.otherwise, _) :: rest => evalLast env rest
termination_by structural branches => branches
end

end Statement

namespace Function

/-- The variables at the start of a function. -/
def initialEnv (inputs : List Input) (args : List Datum) : Env :=
  (inputs.zip args).foldl (fun env input => env.add input.1.name input.2) Scope.empty

/-- Executes a function. -/
def eval (f : Function) (args : List Datum) : Execution :=
  Statement.evalBody (initialEnv f.inputs args) f.body

end Function

end StoredProcedure
