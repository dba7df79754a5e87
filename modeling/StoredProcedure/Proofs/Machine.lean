import Mathlib.Logic.Relation
import StoredProcedure.Instruction.Basic
import StoredProcedure.Proofs.Result
import StoredProcedure.Proofs.Value

/-!
Running code. The machine is described for control flow, the heap, arrays, truth values, integers
and calls. A call of another procedure is recorded and gives null, and every input fits its schema.
The machine is stuck where an operand is missing or of the wrong kind, where an integer overflows,
where a slot or a place to jump to does not exist, and at every other instruction.
-/

namespace StoredProcedure

/-- A call of another procedure. -/
structure Call where
  function : String
  args : List Datum

/-- What code works on: the operands, the top first, the heap by slot, and the calls so far. -/
structure Memory where
  stack : List Datum
  heap : List Datum
  calls : List Call

namespace Memory

def push (m : Memory) (value : Datum) : Memory :=
  { m with stack := value :: m.stack }

def pop (m : Memory) : Option (Datum × Memory) :=
  match m.stack with
  | [] => none
  | value :: stack => some (value, { m with stack })

def popBool (m : Memory) : Option (Bool × Memory) := do
  let (value, m) ← m.pop
  return (← value.bool?, m)

def popInt (m : Memory) : Option (Int × Memory) := do
  let (value, m) ← m.pop
  return (← value.int?, m)

variable (value : Datum) (stack heap : List Datum) (calls : List Call)

@[simp] theorem push_mk : push ⟨stack, heap, calls⟩ value = ⟨value :: stack, heap, calls⟩ := rfl

@[simp] theorem pop_mk : pop ⟨value :: stack, heap, calls⟩ = some (value, ⟨stack, heap, calls⟩) :=
  rfl

@[simp] theorem popBool_mk :
    popBool ⟨value :: stack, heap, calls⟩ =
      value.bool?.map fun b => (b, ⟨stack, heap, calls⟩) := by
  cases h : value.bool? <;> simp [popBool, h]

@[simp] theorem popInt_mk :
    popInt ⟨value :: stack, heap, calls⟩ =
      value.int?.map fun n => (n, ⟨stack, heap, calls⟩) := by
  cases h : value.int? <;> simp [popInt, h]

@[simp] theorem heap_push (m : Memory) (value : Datum) : (m.push value).heap = m.heap := rfl

theorem heap_of_pop {m n : Memory} {value : Datum} (h : m.pop = some (value, n)) :
    n.heap = m.heap := by
  rcases m with ⟨_ | ⟨top, stack⟩, heap, calls⟩
  · cases h
  · obtain ⟨-, rfl⟩ := Prod.mk.inj (Option.some.inj h)
    rfl

theorem heap_of_popBool {m n : Memory} {value : Bool} (h : m.popBool = some (value, n)) :
    n.heap = m.heap := by
  simp only [popBool, bind_eq_some, pure_eq_some] at h
  obtain ⟨⟨_, _⟩, hpop, _, _, hpair⟩ := h
  obtain ⟨-, rfl⟩ := Prod.mk.inj hpair
  exact heap_of_pop hpop

theorem heap_of_popInt {m n : Memory} {value : Int} (h : m.popInt = some (value, n)) :
    n.heap = m.heap := by
  simp only [popInt, bind_eq_some, pure_eq_some] at h
  obtain ⟨⟨_, _⟩, hpop, _, _, hpair⟩ := h
  obtain ⟨-, rfl⟩ := Prod.mk.inj hpair
  exact heap_of_pop hpop

end Memory

/-- The end of a run: the value that was returned, if any, the error that was raised, if any, and
what the run left. -/
structure Outcome where
  returned : Option Datum
  raised : Option String
  memory : Memory

/-- A machine before an instruction. -/
structure Machine where
  cursor : Nat
  memory : Memory

inductive Progress where
  | running (machine : Machine)
  | stopped (outcome : Outcome)

/-- The effect of an instruction. -/
def Instruction.exec (cursor : Nat) (m : Memory) : Instruction → Option Progress
  | .instantiate value => goOn (m.push value)
  | .popStack => do
      let (_, m) ← m.pop
      goOn m
  | .popArray => do
      let (array, m) ← m.pop
      let items ← array.items?
      goOn ((m.push (.array items.dropLast)).push (items.getLastD .null))
  | .arrayPush => do
      let (item, m) ← m.pop
      let (array, m) ← m.pop
      goOn (m.push (.array ((← array.items?) ++ [item])))
  | .arrayLength => do
      let (array, _) ← m.pop
      goOn (m.push (← Datum.ofInt? (← array.items?).length))
  | .stackToHeap => do
      let (value, m) ← m.pop
      goOn { m with heap := m.heap ++ [value] }
  | .stackToHeapArray slot => do
      let (value, m) ← m.pop
      let items ← (← m.heap[slot]?).items?
      goOn { m with heap := m.heap.set slot (.array (items ++ [value])) }
  | .copyFromHeap slot => do goOn (m.push (← m.heap[slot]?))
  | .overwriteHeap slot => do
      let (value, m) ← m.pop
      if slot < m.heap.length then goOn { m with heap := m.heap.set slot value } else none
  | .truncateHeap count =>
      if count ≤ m.heap.length then goOn { m with heap := m.heap.take (m.heap.length - count) }
      else none
  | .assertHeapLength length => if m.heap.length = length then goOn m else none
  | .enforceSchema _ slot => if slot < m.heap.length then goOn (m.push (.bool true)) else none
  | .equal => do
      let (right, m) ← m.pop
      let (left, m) ← m.pop
      goOn (m.push (.bool (right.same left)))
  | .less => do
      let (right, m) ← m.popInt
      let (left, m) ← m.popInt
      goOn (m.push (.bool (left < right)))
  | .lessEqual => do
      let (right, m) ← m.popInt
      let (left, m) ← m.popInt
      goOn (m.push (.bool (left ≤ right)))
  | .add => do
      let (right, m) ← m.popInt
      let (left, m) ← m.popInt
      goOn (m.push (← Datum.ofInt? (left + right)))
  | .and => do
      let (right, m) ← m.popBool
      let (left, m) ← m.popBool
      goOn (m.push (.bool (left && right)))
  | .or => do
      let (right, m) ← m.popBool
      let (left, m) ← m.popBool
      goOn (m.push (.bool (left || right)))
  | .negate => do
      let (value, m) ← m.popBool
      goOn (m.push (.bool (!value)))
  | .skipIf count => do
      let (value, m) ← m.popBool
      return .running ⟨if value then cursor + 1 + count else cursor + 1, m⟩
  | .jump offset true => some (.running ⟨cursor + 1 + offset, m⟩)
  | .jump offset false =>
      if offset ≤ cursor then some (.running ⟨cursor - offset, m⟩) else none
  | .noop => goOn m
  | .returnTop => do
      let (value, m) ← m.pop
      return .stopped ⟨some value, none, m⟩
  | .returnVoid => some (.stopped ⟨some .null, none, m⟩)
  | .raise message => some (.stopped ⟨none, some message, m⟩)
  | .invoke function args =>
      if args ≤ m.stack.length then
        goOn
          { m with
            stack := .null :: m.stack.drop args
            calls := m.calls ++ [⟨function, (m.stack.take args).reverse⟩] }
      else none
  | _ => none
where
  goOn (m : Memory) : Option Progress := some (.running ⟨cursor + 1, m⟩)

@[simp] theorem Instruction.exec_goOn (cursor : Nat) (m : Memory) :
    exec.goOn cursor m = some (.running ⟨cursor + 1, m⟩) := rfl

namespace Machine

/-- One step. A machine whose cursor is past the code stops. -/
def step (code : Code) (m : Machine) : Option Progress :=
  match code[m.cursor]? with
  | none => some (.stopped ⟨none, none, m.memory⟩)
  | some instruction => instruction.exec m.cursor m.memory

/-- Runs a machine for at most so many steps. -/
def run (code : Code) : Nat → Machine → Option Outcome
  | 0, _ => none
  | steps + 1, m =>
      match m.step code with
      | none => none
      | some (.running next) => run code steps next
      | some (.stopped outcome) => some outcome

/-- The machine at the start of a procedure. -/
def start (inputs : List Datum) : Machine :=
  ⟨0, ⟨[], inputs, []⟩⟩

/-- A machine comes to another one in any number of steps. -/
def Steps (code : Code) : Machine → Machine → Prop :=
  Relation.ReflTransGen fun m next => m.step code = some (.running next)

theorem exists_run_of_steps {code : Code} {m last : Machine} {outcome : Outcome}
    (hsteps : Steps code m last) (hlast : last.step code = some (.stopped outcome)) :
    ∃ steps, run code steps m = some outcome := by
  induction hsteps using Relation.ReflTransGen.head_induction_on with
  | refl => exact ⟨1, by rw [run, hlast]⟩
  | head hstep _ ih =>
      obtain ⟨steps, hrun⟩ := ih
      exact ⟨steps + 1, by rw [run, hstep]; exact hrun⟩

end Machine

end StoredProcedure
