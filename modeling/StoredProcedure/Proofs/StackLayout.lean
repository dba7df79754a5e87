import StoredProcedure.Proofs.HeapLayout
import StoredProcedure.Proofs.StackFlow

namespace StoredProcedure

namespace Code

theorem shifts_truncation (slots : Slots) (a : Nat) : slots.truncation.Shifts a a := by
  rw [Slots.truncation]
  split
  · exact shifts_nil a
  · exact shifts_step rfl (Nat.zero_le a) (Int.add_zero a).symm

theorem shifts_loop {body : Code} (h : body.Shifts 0 0) (declared : Nat) :
    (loop body declared).Shifts 1 0 := by
  have htest : Shifts 1 2 [.arrayLength, zero, .equal] := shifts_straight rfl
  have hitem : Shifts 1 1 [.popArray, .stackToHeap] := shifts_straight rfl
  have hdrop : Shifts 1 1 [.truncateHeap declared] := shifts_straight rfl
  have hpop : Shifts 1 0 [.popStack] := shifts_straight rfl
  have hround := hitem.append ((h.lift 1).append hdrop)
  simpa [loop] using (htest.loop hround).append hpop

end Code

namespace Expr

variable {slots : Slots} {es : List Expr} {code : Code}

theorem shifts_compileAppends (slot : Nat) (h : compileAppends slots slot es = .ok code) :
    code.Shifts 0 0 := by
  induction es generalizing code with
  | nil =>
      obtain rfl := Except.ok.inj h
      exact Code.shifts_nil 0
  | cons e rest ih =>
      simp only [compileAppends, bind_eq_ok, pure_eq_ok] at h
      obtain ⟨first, hfirst, more, hmore, rfl⟩ := h
      have hpush : Code.Shifts 1 0 [.stackToHeapArray slot] := Code.shifts_straight rfl
      exact (shifts_compile slots e hfirst).append (hpush.append (ih hmore))

theorem shifts_compileArray (h : compileArray slots es = .ok code) : code.Shifts 0 1 := by
  simp only [compileArray, bind_eq_ok, pure_eq_ok] at h
  obtain ⟨pushes, hpushes, rfl⟩ := h
  have hempty : Code.Shifts 0 1 [.instantiate .emptyArray] := Code.shifts_straight rfl
  exact hempty.append (shifts_compilePushes slots es hpushes)

end Expr

theorem Edit.shifts_compile {slots : Slots} {name : String} {slot : Nat} {level : List Expr}
    {edit : Edit} {code : Code} (h : edit.compile slots name slot level = .ok code) :
    code.Shifts 0 0 := by
  cases edit with
  | push values =>
      rw [compile] at h
      split at h
      · exact Expr.shifts_compileAppends slot h
      · simp only [bind_eq_ok, pure_eq_ok] at h
        obtain ⟨path, hpath, items, hitems, rfl⟩ := h
        have hpush : Code.Shifts (level.length + 1) 0 [.pushSavedField level.length slot] :=
          Code.shifts_step rfl (Nat.le_refl _) (by simp only [Instruction.net]; omega)
        have hvalue := (Expr.shifts_compileArray hitems).lift level.length
        rw [Nat.zero_add, Nat.add_comm] at hvalue
        exact ((Expr.shifts_compileList slots level hpath).append hvalue).append hpush
  | deleteField =>
      simp only [compile, bind_eq_ok, pure_eq_ok] at h
      obtain ⟨_, _, path, hpath, rfl⟩ := h
      have hdelete : Code.Shifts level.length 0 [.deleteSavedField level.length slot] :=
        Code.shifts_step rfl (Nat.le_refl _) (by simp only [Instruction.net]; omega)
      exact (Expr.shifts_compileList slots level hpath).append hdelete
  | set value =>
      rw [compile] at h
      split at h
      · simp only [bind_eq_ok, pure_eq_ok] at h
        obtain ⟨result, hresult, rfl⟩ := h
        exact (Expr.shifts_compile slots value hresult).append (Code.shifts_straight rfl)
      · simp only [bind_eq_ok, pure_eq_ok] at h
        obtain ⟨path, hpath, result, hresult, rfl⟩ := h
        have hset : Code.Shifts (level.length + 1) 0 [.setSavedField level.length slot] :=
          Code.shifts_step rfl (Nat.le_refl _) (by simp only [Instruction.net]; omega)
        have hvalue := (Expr.shifts_compile slots value hresult).lift level.length
        rw [Nat.zero_add, Nat.add_comm] at hvalue
        exact ((Expr.shifts_compileList slots level hpath).append hvalue).append hset

namespace Statement

mutual
/-- The code of a statement leaves the stack as it finds it. -/
theorem shifts_compile : (s : Statement) → (slots : Slots) → {after : Slots} → {code : Code} →
    s.compile slots = .ok (code, after) → code.Shifts 0 0
  | .ret none, slots => by
      intro h
      simp only [compile, Except.ok.injEq, Prod.mk.injEq] at h
      obtain ⟨rfl, -⟩ := h
      exact Code.shifts_stop rfl (Nat.zero_le 0) 0
  | .ret (some value), slots => by
      intro h
      simp only [compile, bind_eq_ok, pure_eq_ok, Prod.mk.injEq] at h
      obtain ⟨_, hvalue, rfl, -⟩ := h
      exact (Expr.shifts_compile slots value hvalue).append
        (Code.shifts_stop rfl (Nat.le_refl 1) 0)
  | .save name value, slots => by
      intro h
      simp only [compile, bind_eq_ok, pure_eq_ok, Prod.mk.injEq] at h
      obtain ⟨_, hvalue, rfl, -⟩ := h
      exact (Expr.shifts_compile slots value hvalue).append (Code.shifts_straight rfl)
  | .update (.globalObject _) _ _, _ => by
      intro h
      cases h
  | .update (.saved name) level edit, slots => by
      intro h
      simp only [compile, bind_eq_ok, pure_eq_ok, Prod.mk.injEq] at h
      obtain ⟨slot, _, _, hedit, rfl, -⟩ := h
      exact Edit.shifts_compile hedit
  | .choice branches, slots => by
      intro h
      simp only [compile, bind_eq_ok, pure_eq_ok, Prod.mk.injEq] at h
      obtain ⟨_, _, ⟨arms, last⟩, hbranches, rfl, -⟩ := h
      obtain ⟨harms, hlast⟩ := shifts_compileBranches branches slots hbranches
      exact harms.append hlast
  | .forEach source item body, slots => by
      intro h
      simp only [compile, bind_eq_ok, pure_eq_ok, Prod.mk.injEq] at h
      obtain ⟨_, hsource, ⟨_, inner⟩, hbody, rfl, -⟩ := h
      exact (Expr.shifts_compile slots source hsource).append
        (Code.shifts_loop (shifts_compileBody body _ hbody) inner.declared)
  | .call function args, slots => by
      intro h
      simp only [compile, bind_eq_ok, pure_eq_ok, Prod.mk.injEq] at h
      obtain ⟨_, hargs, rfl, -⟩ := h
      have hpop : Code.Shifts 1 0 [.popStack] := Code.shifts_straight rfl
      exact (Expr.shifts_compileList slots args hargs).append
        ((Code.shifts_invoke function args.length).append hpop)
  | .noop, _ => by
      intro h
      simp only [compile, Except.ok.injEq, Prod.mk.injEq] at h
      obtain ⟨rfl, -⟩ := h
      exact Code.shifts_straight rfl
  | .setKey _ [] _, _ | .deleteKey _ [], _ | .pushAtKey _ [] _, _ => by
      intro h
      cases h
  | .setKey store (first :: rest) value, slots => by
      intro h
      simp only [compile, bind_eq_ok, pure_eq_ok, Prod.mk.injEq] at h
      obtain ⟨_, hrest, _, hvalue, _, hfirst, rfl, -⟩ := h
      exact Code.shifts_setKey store (Expr.shifts_compile slots first hfirst)
        (Expr.shifts_compileList slots rest hrest) (Expr.shifts_compile slots value hvalue)
  | .deleteKey store (first :: rest), slots => by
      intro h
      simp only [compile, bind_eq_ok, pure_eq_ok, Prod.mk.injEq] at h
      obtain ⟨_, hrest, _, hfirst, rfl, -⟩ := h
      exact Code.shifts_deleteKey store (Expr.shifts_compile slots first hfirst)
        (Expr.shifts_compileList slots rest hrest)
  | .pushAtKey store (first :: rest) values, slots => by
      intro h
      simp only [compile, bind_eq_ok, pure_eq_ok, Prod.mk.injEq] at h
      obtain ⟨_, hrest, _, hvalues, _, hfirst, rfl, -⟩ := h
      exact Code.shifts_pushAtKey store (Expr.shifts_compile slots first hfirst)
        (Expr.shifts_compileList slots rest hrest) (Expr.shifts_compileArray hvalues)
termination_by structural s => s

theorem shifts_compileBody : (body : List Statement) → (slots : Slots) → {after : Slots} →
    {code : Code} → compileBody slots body = .ok (code, after) → code.Shifts 0 0
  | [], _ => by
      intro h
      simp only [compileBody, Except.ok.injEq, Prod.mk.injEq] at h
      obtain ⟨rfl, -⟩ := h
      exact Code.shifts_nil 0
  | s :: rest, slots => by
      intro h
      simp only [compileBody, bind_eq_ok, pure_eq_ok, Prod.mk.injEq] at h
      obtain ⟨⟨_, middle⟩, hfirst, ⟨_, final⟩, hrest, rfl, -⟩ := h
      exact (shifts_compile s slots hfirst).append (shifts_compileBody rest middle hrest)
termination_by structural body => body

theorem shifts_compileBranches : (branches : List (Guard × List Statement)) → (slots : Slots) →
    {arms last : Code} → compileBranches slots branches = .ok (arms, last) →
    arms.Shifts 0 0 ∧ last.Shifts 0 0
  | [], _ => by
      intro h
      simp only [compileBranches, Except.ok.injEq, Prod.mk.injEq] at h
      obtain ⟨rfl, rfl⟩ := h
      exact ⟨Code.shifts_nil 0, Code.shifts_straight rfl⟩
  | (.lastly, body) :: _, slots => by
      intro h
      simp only [compileBranches, bind_eq_ok, pure_eq_ok, Prod.mk.injEq] at h
      obtain ⟨⟨_, inner⟩, hbody, rfl, rfl⟩ := h
      exact ⟨Code.shifts_nil 0,
        (shifts_compileBody body _ hbody).append (Code.shifts_truncation inner 0)⟩
  | (.otherwise, body) :: rest, slots => by
      intro h
      simp only [compileBranches, Guard.compile, bind_eq_ok, pure_eq_ok, Prod.mk.injEq] at h
      obtain ⟨⟨_, inner⟩, hbody, _, htest, ⟨others, final⟩, hrest, rfl, rfl⟩ := h
      obtain rfl := Except.ok.inj htest
      have harm := (shifts_compileBody body _ hbody).append (Code.shifts_truncation inner 0)
      obtain ⟨hothers, hlast⟩ := shifts_compileBranches rest slots hrest
      exact ⟨harm.append hothers.jumpOver, hlast⟩
  | (.when condition, body) :: rest, slots => by
      intro h
      simp only [compileBranches, Guard.compile, bind_eq_ok, pure_eq_ok, Prod.mk.injEq] at h
      obtain ⟨⟨_, inner⟩, hbody, _, ⟨test, htest, rfl⟩, ⟨others, final⟩, hrest, rfl, rfl⟩ := h
      have harm := (shifts_compileBody body _ hbody).append (Code.shifts_truncation inner 0)
      obtain ⟨hothers, hlast⟩ := shifts_compileBranches rest slots hrest
      have hnegate : Code.Shifts 1 1 [.negate] := Code.shifts_straight rfl
      have harms := (Expr.shifts_compile slots condition htest).append
        (hnegate.append (harm.choice hothers))
      exact ⟨by simpa using harms, hlast⟩
termination_by structural branches => branches
end

end Statement

namespace Function

theorem shifts_prologue (slots : Slots) (inputs : List Input) :
    (prologue slots inputs).1.Shifts 0 0 := by
  induction inputs generalizing slots with
  | nil => exact Code.shifts_nil 0
  | cons input rest ih =>
      have hcheck : Code.Shifts 0 1 [.enforceSchema input.schema slots.nextSlot] :=
        Code.shifts_straight rfl
      have hraise := (Code.shifts_raise "invalid input" 0 0).skipOver
      exact (hcheck.append hraise).append (ih _)

theorem shifts_compile {f : Function} {code : Code} (h : f.compile = .ok code) :
    code.Shifts 0 0 := by
  simp only [compile, bind_eq_ok, pure_eq_ok] at h
  obtain ⟨⟨body, after⟩, hbody, rfl⟩ := h
  have hassert : Code.Shifts 0 0 [.assertHeapLength f.inputs.length] := Code.shifts_straight rfl
  exact (hassert.append (shifts_prologue _ f.inputs)).append
    (Statement.shifts_compileBody f.body _ hbody)

end Function

namespace Code

/-- The heights of the stack at the positions of code that is entered with `base` values on the
stack, which it never takes. -/
structure StackLayout (code : Code) (base final : Nat) (height : Nat → Nat) : Prop where
  start : height 0 = base
  operands : ∀ (pos : Nat) (instruction : Instruction), code[pos]? = some instruction →
    base + instruction.operands ≤ height pos
  /-- Every move stays inside the code or leads to its end. -/
  moves : ∀ (pos : Nat) (instruction : Instruction), code[pos]? = some instruction →
    ∀ move ∈ instruction.moves, ∃ target : Nat, (target : Int) = pos + move ∧ target ≤ code.length ∧
      (height target : Int) = height pos + instruction.net
  finish : height code.length = final

/-- A step from a position and a height of the stack, whatever the values are. -/
def StackStep (code : Code) (before after : Nat × Int) : Prop :=
  ∃ instruction, code[before.1]? = some instruction ∧
    (after.1 : Int) - before.1 ∈ instruction.moves ∧ after.2 = before.2 + instruction.net

theorem StackLayout.height_of_walk {code : Code} {base final : Nat} {height : Nat → Nat}
    (h : StackLayout code base final height) {reached : Nat × Int}
    (hwalk : Relation.ReflTransGen code.StackStep (0, base) reached) :
    reached.1 ≤ code.length ∧ reached.2 = height reached.1 := by
  induction hwalk with
  | refl => exact ⟨Nat.zero_le _, congrArg Nat.cast h.start.symm⟩
  | tail _ hstep ih =>
      obtain ⟨instruction, hinstruction, hmove, hafter⟩ := hstep
      obtain ⟨target, htarget, hinside, hheight⟩ := h.moves _ instruction hinstruction _ hmove
      rw [Int.add_comm, Int.sub_add_cancel, Int.natCast_inj] at htarget
      rw [hafter, ih.2, ← htarget]
      exact ⟨hinside, hheight.symm⟩

theorem Shifts.exists_stackLayout {code : Code} {final : Nat} (h : code.Shifts 0 final)
    (base : Nat) : ∃ height, code.StackLayout base (base + final) height := by
  obtain ⟨height, hstart, hfinish, hflow⟩ := (h base).exists_levels
  refine ⟨height, hstart, fun pos instruction hpos => ?_, fun pos instruction hpos move hmove => ?_,
    hfinish⟩
  · obtain ⟨_, heffect, -⟩ := hflow pos instruction hpos
    exact heffect.1
  · obtain ⟨after, heffect, hmoves⟩ := hflow pos instruction hpos
    obtain ⟨target, htarget, hinside, rfl⟩ := hmoves move hmove
    exact ⟨target, htarget, hinside, heffect.2⟩

end Code

namespace Memory

theorem length_of_pop {m n : Memory} {value : Datum} (h : m.pop = some (value, n)) :
    m.stack.length = n.stack.length + 1 := by
  rcases m with ⟨_ | ⟨top, stack⟩, heap, calls⟩
  · cases h
  · obtain ⟨-, rfl⟩ := Prod.mk.inj (Option.some.inj h)
    rfl

theorem length_of_popBool {m n : Memory} {value : Bool} (h : m.popBool = some (value, n)) :
    m.stack.length = n.stack.length + 1 := by
  simp only [popBool, bind_eq_some, pure_eq_some] at h
  obtain ⟨⟨_, _⟩, hpop, _, _, hpair⟩ := h
  obtain ⟨-, rfl⟩ := Prod.mk.inj hpair
  exact length_of_pop hpop

theorem length_of_popInt {m n : Memory} {value : Int} (h : m.popInt = some (value, n)) :
    m.stack.length = n.stack.length + 1 := by
  simp only [popInt, bind_eq_some, pure_eq_some] at h
  obtain ⟨⟨_, _⟩, hpop, _, _, hpair⟩ := h
  obtain ⟨-, rfl⟩ := Prod.mk.inj hpair
  exact length_of_pop hpop

theorem length_push (m : Memory) (value : Datum) :
    (m.push value).stack.length = m.stack.length + 1 := rfl

end Memory

theorem Instruction.length_stack_of_exec {instruction : Instruction} {cursor : Nat} {m : Memory}
    {next : Machine} (h : instruction.exec cursor m = some (.running next)) :
    (next.memory.stack.length : Int) = m.stack.length + instruction.net := by
  cases instruction <;>
    simp only [exec, bind_eq_some, pure_eq_some, exec_goOn, Option.some.injEq,
      Progress.running.injEq, Prod.exists] at h <;>
    grind [→ Memory.length_of_pop, → Memory.length_of_popBool, → Memory.length_of_popInt, net,
      Memory.length_push]

theorem Machine.stackWalk_of_steps {code : Code} {m last : Machine} (h : Steps code m last) :
    Relation.ReflTransGen code.StackStep (m.cursor, m.memory.stack.length)
      (last.cursor, last.memory.stack.length) := by
  refine h.lift (fun m => (m.cursor, (m.memory.stack.length : Int))) fun before after hstep => ?_
  rw [Machine.step] at hstep
  split at hstep
  · cases hstep
  · rename_i instruction hinstruction
    exact ⟨instruction, hinstruction, (Instruction.heapStep_of_exec hstep).1,
      Instruction.length_stack_of_exec hstep⟩

namespace Code

/-- The code of a function has one height of the stack at each position, on all ways that lead there
and so in every run of a machine; no instruction lacks operands, and the stack is empty at the start
and at the end. The code of an expression, entered with any stack, leaves one value on top of it and
never takes what was there. -/
theorem stack_balanced :
    (∀ (f : Function) (code : Code), f.compile = .ok code → ∃ height : Nat → Nat,
      code.StackLayout 0 0 height ∧
      (∀ pos reached, Relation.ReflTransGen code.StackStep (0, 0) (pos, reached) →
        pos ≤ code.length ∧ reached = height pos) ∧
      ∀ (args : List Datum) (m : Machine), Machine.Steps code (.start args) m →
        m.cursor ≤ code.length ∧ m.memory.stack.length = height m.cursor) ∧
    ∀ (slots : Slots) (e : Expr) (code : Code), e.compile slots = .ok code →
      ∀ base : Nat, ∃ height : Nat → Nat, code.StackLayout base (base + 1) height ∧
        ∀ pos reached, Relation.ReflTransGen code.StackStep (0, base) (pos, reached) →
          pos ≤ code.length ∧ reached = height pos := by
  constructor
  · intro f code hcode
    obtain ⟨height, hlayout⟩ := (Function.shifts_compile hcode).exists_stackLayout 0
    refine ⟨height, hlayout, fun pos reached hwalk => hlayout.height_of_walk hwalk, ?_⟩
    intro args m hsteps
    obtain ⟨hinside, hheight⟩ := hlayout.height_of_walk (Machine.stackWalk_of_steps hsteps)
    exact ⟨hinside, Int.natCast_inj.mp hheight⟩
  · intro slots e code hcode base
    obtain ⟨height, hlayout⟩ := (Expr.shifts_compile slots e hcode).exists_stackLayout base
    exact ⟨height, hlayout, fun pos reached hwalk => hlayout.height_of_walk hwalk⟩

theorem stack_balanced_renameUsers :
    (∃ code height, Function.renameUsers.compile = .ok code ∧ code.StackLayout 0 0 height) ∧
      ∃ code height, (Expr.keyOfObject "users" [.string "k", .keysOfObject "log"]).compile
        Scope.empty = .ok code ∧ code.StackLayout 3 4 height := by
  obtain ⟨hfunction, hexpr⟩ := stack_balanced
  constructor
  · obtain ⟨code, hcode⟩ : ∃ code, Function.renameUsers.compile = .ok code := ⟨_, rfl⟩
    obtain ⟨height, hlayout, -⟩ := hfunction _ code hcode
    exact ⟨code, height, hcode, hlayout⟩
  · obtain ⟨code, hcode⟩ : ∃ code, (Expr.keyOfObject "users"
        [.string "k", .keysOfObject "log"]).compile Scope.empty = .ok code := ⟨_, rfl⟩
    obtain ⟨height, hlayout, -⟩ := hexpr _ _ code hcode 3
    exact ⟨code, height, hcode, hlayout⟩

end Code

end StoredProcedure
