import StoredProcedure.Proofs.HeapFlow
import StoredProcedure.Proofs.Machine

namespace StoredProcedure

open Instruction (HeapEffect)

namespace Code

theorem flows_stackToHeap (inputs length : Nat) :
    Flows (HeapEffect inputs) [.stackToHeap] length [(0, length + 1)] :=
  flows_step rfl ⟨⟨nofun, nofun, nofun⟩, rfl⟩

theorem flows_truncateHeap {inputs length count : Nat} (h : inputs ≤ length) :
    Flows (HeapEffect inputs) [.truncateHeap count] (length + count) [(0, length)] := by
  refine flows_step rfl ⟨⟨nofun, ?_, nofun⟩, (Nat.add_sub_cancel _ _).symm⟩
  rintro _ ⟨⟩
  exact Nat.add_le_add_right h count

theorem flows_truncation {inputs : Nat} {inner slots : Slots} (hleave : inner.leave = slots)
    (h : inputs ≤ slots.nextSlot) :
    Flows (HeapEffect inputs) inner.truncation inner.nextSlot [(0, slots.nextSlot)] := by
  subst hleave
  rw [← Scope.nextSlot_leave inner, Slots.truncation]
  split
  · rename_i hnone
    rw [hnone, Nat.add_zero]
    exact flows_nil _
  · exact flows_truncateHeap h

/-- A loop takes the item off the array, which makes one variable more, and the end of a round drops
all that the round declared. -/
theorem keepsHeap_loop {inputs : Nat} {inner slots : Slots} {body : Code}
    (hleave : inner.leave = slots) (h : inputs ≤ slots.nextSlot)
    (hbody : Flows (HeapEffect inputs) body (slots.nextSlot + 1) [(0, inner.nextSlot)]) :
    (loop body inner.declared).KeepsHeap inputs slots.nextSlot := by
  subst hleave
  have htest : KeepsHeap inputs inner.leave.nextSlot [.arrayLength, zero, .equal] :=
    keepsHeap_plain rfl
  have hpop : KeepsHeap inputs inner.leave.nextSlot [.popStack] := keepsHeap_plain rfl
  have hitem : KeepsHeap inputs inner.leave.nextSlot [.popArray] := keepsHeap_plain rfl
  have hdrop : Flows (HeapEffect inputs) [.truncateHeap inner.declared] inner.nextSlot
      [(0, inner.leave.nextSlot)] := by
    rw [← Scope.nextSlot_leave inner]
    exact flows_truncateHeap h
  have hround : KeepsHeap inputs inner.leave.nextSlot
      ([.popArray] ++ ([.stackToHeap] ++ (body ++ [.truncateHeap inner.declared]))) :=
    hitem.andThen ((flows_stackToHeap _ _).andThen (hbody.andThen hdrop))
  have hloop := (htest.loop hround).append hpop
  simpa [loop] using hloop

end Code

theorem Expr.keepsHeap_compileAppends {inputs slot : Nat} {slots : Slots} (es : List Expr)
    (hslot : slot < slots.nextSlot) :
    ∀ code, compileAppends slots slot es = .ok code → code.KeepsHeap inputs slots.nextSlot := by
  induction es with
  | nil =>
      intro code h
      obtain rfl := Except.ok.inj h
      exact Code.keepsHeap_nil
  | cons e rest ih =>
      intro code h
      simp only [compileAppends, bind_eq_ok, pure_eq_ok] at h
      obtain ⟨first, hfirst, more, hmore, rfl⟩ := h
      have hpush : Code.KeepsHeap inputs slots.nextSlot [.stackToHeapArray slot] :=
        Code.flows_step rfl (Instruction.heapEffect_slot rfl hslot)
      exact (keepsHeap_compile inputs slots e hfirst).append (hpush.append (ih more hmore))

theorem Expr.keepsHeap_compileArray {inputs : Nat} {slots : Slots} {es : List Expr} {code : Code}
    (h : compileArray slots es = .ok code) : code.KeepsHeap inputs slots.nextSlot := by
  simp only [compileArray, bind_eq_ok, pure_eq_ok] at h
  obtain ⟨pushes, hpushes, rfl⟩ := h
  exact (keepsHeap_compilePushes inputs slots es hpushes).cons rfl

theorem Edit.keepsHeap_compile {inputs slot : Nat} {slots : Slots} {name : String}
    {level : List Expr} {edit : Edit} {code : Code} (hslot : slot < slots.nextSlot)
    (h : edit.compile slots name slot level = .ok code) :
    code.KeepsHeap inputs slots.nextSlot := by
  have hchange : ∀ instruction : Instruction, instruction.moves = [1] →
      instruction.slots = [slot] → Code.KeepsHeap inputs slots.nextSlot [instruction] :=
    fun _ hmoves hslots => Code.flows_step hmoves (Instruction.heapEffect_slot hslots hslot)
  cases edit with
  | push values =>
      rw [compile] at h
      split at h
      · exact Expr.keepsHeap_compileAppends values hslot code h
      · simp only [bind_eq_ok, pure_eq_ok] at h
        obtain ⟨path, hpath, items, hitems, rfl⟩ := h
        exact ((Expr.keepsHeap_compileList inputs slots level hpath).append
          (Expr.keepsHeap_compileArray hitems)).append (hchange _ rfl rfl)
  | deleteField =>
      simp only [compile, bind_eq_ok, pure_eq_ok] at h
      obtain ⟨_, _, path, hpath, rfl⟩ := h
      exact (Expr.keepsHeap_compileList inputs slots level hpath).append (hchange _ rfl rfl)
  | set value =>
      rw [compile] at h
      split at h
      · simp only [bind_eq_ok, pure_eq_ok] at h
        obtain ⟨result, hresult, rfl⟩ := h
        exact (Expr.keepsHeap_compile inputs slots value hresult).append (hchange _ rfl rfl)
      · simp only [bind_eq_ok, pure_eq_ok] at h
        obtain ⟨path, hpath, result, hresult, rfl⟩ := h
        exact ((Expr.keepsHeap_compileList inputs slots level hpath).append
          (Expr.keepsHeap_compile inputs slots value hresult)).append (hchange _ rfl rfl)

namespace Statement

mutual
/-- The code of a statement leads from the heap of the scope before it to that of the scope after
it. -/
theorem flows_compile (inputs : Nat) : (s : Statement) → (slots : Slots) → {after : Slots} →
    {code : Code} → inputs ≤ slots.nextSlot → s.compile slots = .ok (code, after) →
    Code.Flows (HeapEffect inputs) code slots.nextSlot [(0, after.nextSlot)]
  | .ret none, slots => by
      intro _ h
      simp only [compile, Except.ok.injEq, Prod.mk.injEq] at h
      obtain ⟨rfl, rfl⟩ := h
      exact Code.flows_stop rfl ⟨⟨nofun, nofun, nofun⟩, rfl⟩ _
  | .ret (some value), slots => by
      intro _ h
      simp only [compile, bind_eq_ok, pure_eq_ok] at h
      obtain ⟨_, hvalue, hpair⟩ := h
      obtain ⟨rfl, rfl⟩ := Prod.mk.inj hpair
      exact (Expr.keepsHeap_compile inputs slots value hvalue).andThen
        (Code.flows_stop rfl ⟨⟨nofun, nofun, nofun⟩, rfl⟩ _)
  | .save name value, slots => by
      intro _ h
      simp only [compile, bind_eq_ok, pure_eq_ok] at h
      obtain ⟨_, hvalue, hpair⟩ := h
      obtain ⟨rfl, rfl⟩ := Prod.mk.inj hpair
      rw [Scope.nextSlot_add]
      exact (Expr.keepsHeap_compile inputs slots value hvalue).andThen
        (Code.flows_stackToHeap inputs slots.nextSlot)
  | .update (.globalObject _) _ _, _ => by
      intro _ h
      cases h
  | .update (.saved name) level edit, slots => by
      intro _ h
      simp only [compile, bind_eq_ok, pure_eq_ok] at h
      obtain ⟨slot, hslot, _, hedit, hpair⟩ := h
      obtain ⟨rfl, rfl⟩ := Prod.mk.inj hpair
      exact Edit.keepsHeap_compile (Slots.resolve_lt hslot) hedit
  | .choice branches, slots => by
      intro hinputs h
      simp only [compile, bind_eq_ok, pure_eq_ok] at h
      obtain ⟨_, _, ⟨arms, last⟩, hbranches, hpair⟩ := h
      obtain ⟨rfl, rfl⟩ := Prod.mk.inj hpair
      obtain ⟨harms, hlast⟩ := keepsHeap_compileBranches inputs branches slots hinputs hbranches
      exact harms.append hlast
  | .forEach source item body, slots => by
      intro hinputs h
      simp only [compile, bind_eq_ok, pure_eq_ok] at h
      obtain ⟨_, hsource, ⟨_, inner⟩, hbody, hpair⟩ := h
      obtain ⟨rfl, rfl⟩ := Prod.mk.inj hpair
      have hround := flows_compileBody inputs body (slots.enter.add item ())
        (Nat.le_succ_of_le hinputs) hbody
      exact (Expr.keepsHeap_compile inputs slots source hsource).append
        (Code.keepsHeap_loop (leave_compileBody hbody) hinputs hround)
  | .call function args, slots => by
      intro _ h
      simp only [compile, bind_eq_ok, pure_eq_ok] at h
      obtain ⟨_, hargs, hpair⟩ := h
      obtain ⟨rfl, rfl⟩ := Prod.mk.inj hpair
      exact (Expr.keepsHeap_compileList inputs slots args hargs).append (Code.keepsHeap_plain rfl)
  | .noop, _ => by
      intro _ h
      simp only [compile, Except.ok.injEq, Prod.mk.injEq] at h
      obtain ⟨rfl, rfl⟩ := h
      exact Code.keepsHeap_plain rfl
  | .setKey _ [] _, _ | .deleteKey _ [], _ | .pushAtKey _ [] _, _ => by
      intro _ h
      cases h
  | .setKey store (first :: rest) value, slots => by
      intro _ h
      simp only [compile, bind_eq_ok, pure_eq_ok] at h
      obtain ⟨_, hrest, _, hvalue, _, hfirst, hpair⟩ := h
      obtain ⟨rfl, rfl⟩ := Prod.mk.inj hpair
      exact Code.keepsHeap_setKey store rest.length
        (Expr.keepsHeap_compile inputs slots first hfirst)
        (Expr.keepsHeap_compileList inputs slots rest hrest)
        (Expr.keepsHeap_compile inputs slots value hvalue)
  | .deleteKey store (first :: rest), slots => by
      intro _ h
      simp only [compile, bind_eq_ok, pure_eq_ok] at h
      obtain ⟨_, hrest, _, hfirst, hpair⟩ := h
      obtain ⟨rfl, rfl⟩ := Prod.mk.inj hpair
      exact Code.keepsHeap_deleteKey store rest.length
        (Expr.keepsHeap_compile inputs slots first hfirst)
        (Expr.keepsHeap_compileList inputs slots rest hrest)
  | .pushAtKey store (first :: rest) values, slots => by
      intro _ h
      simp only [compile, bind_eq_ok, pure_eq_ok] at h
      obtain ⟨_, hrest, _, hvalues, _, hfirst, hpair⟩ := h
      obtain ⟨rfl, rfl⟩ := Prod.mk.inj hpair
      exact Code.keepsHeap_pushAtKey store rest.length
        (Expr.keepsHeap_compile inputs slots first hfirst)
        (Expr.keepsHeap_compileList inputs slots rest hrest)
        (Expr.keepsHeap_compileArray hvalues)
termination_by structural s => s

theorem flows_compileBody (inputs : Nat) : (body : List Statement) → (slots : Slots) →
    {after : Slots} → {code : Code} → inputs ≤ slots.nextSlot →
    compileBody slots body = .ok (code, after) →
    Code.Flows (HeapEffect inputs) code slots.nextSlot [(0, after.nextSlot)]
  | [], slots => by
      intro _ h
      simp only [compileBody, Except.ok.injEq, Prod.mk.injEq] at h
      obtain ⟨rfl, rfl⟩ := h
      exact Code.flows_nil _
  | s :: rest, slots => by
      intro hinputs h
      simp only [compileBody, bind_eq_ok, pure_eq_ok] at h
      obtain ⟨⟨_, middle⟩, hfirst, ⟨_, final⟩, hrest, hpair⟩ := h
      obtain ⟨rfl, rfl⟩ := Prod.mk.inj hpair
      have hmiddle : inputs ≤ middle.nextSlot := by
        rw [eq_scopeAfter_of_compile hfirst, nextSlot_scopeAfter]
        exact Nat.le_add_right_of_le hinputs
      exact (flows_compile inputs s slots hinputs hfirst).andThen
        (flows_compileBody inputs rest middle hmiddle hrest)
termination_by structural body => body

theorem keepsHeap_compileBranches (inputs : Nat) : (branches : List (Guard × List Statement)) →
    (slots : Slots) → {arms last : Code} → inputs ≤ slots.nextSlot →
    compileBranches slots branches = .ok (arms, last) →
    arms.KeepsHeap inputs slots.nextSlot ∧ last.KeepsHeap inputs slots.nextSlot
  | [], slots => by
      intro _ h
      simp only [compileBranches, Except.ok.injEq, Prod.mk.injEq] at h
      obtain ⟨rfl, rfl⟩ := h
      exact ⟨Code.keepsHeap_nil, Code.keepsHeap_plain rfl⟩
  | (.lastly, body) :: _, slots => by
      intro hinputs h
      simp only [compileBranches, bind_eq_ok, pure_eq_ok] at h
      obtain ⟨⟨_, inner⟩, hbody, hpair⟩ := h
      obtain ⟨rfl, rfl⟩ := Prod.mk.inj hpair
      have hblock := flows_compileBody inputs body slots.enter hinputs hbody
      exact ⟨Code.keepsHeap_nil,
        hblock.andThen (Code.flows_truncation (leave_compileBody hbody) hinputs)⟩
  | (.otherwise, body) :: rest, slots => by
      intro hinputs h
      simp only [compileBranches, Guard.compile, bind_eq_ok, pure_eq_ok] at h
      obtain ⟨⟨_, inner⟩, hbody, _, htest, ⟨others, final⟩, hrest, hpair⟩ := h
      obtain ⟨rfl, rfl⟩ := Prod.mk.inj hpair
      obtain rfl := Except.ok.inj htest
      have hblock := flows_compileBody inputs body slots.enter hinputs hbody
      have harm := hblock.andThen (Code.flows_truncation (leave_compileBody hbody) hinputs)
      obtain ⟨hothers, hlast⟩ := keepsHeap_compileBranches inputs rest slots hinputs hrest
      exact ⟨harm.andThen hothers.jumpOver, hlast⟩
  | (.when condition, body) :: rest, slots => by
      intro hinputs h
      simp only [compileBranches, Guard.compile, bind_eq_ok, pure_eq_ok] at h
      obtain ⟨⟨_, inner⟩, hbody, _, ⟨test, htest, rfl⟩, ⟨others, final⟩, hrest, hpair⟩ := h
      obtain ⟨rfl, rfl⟩ := Prod.mk.inj hpair
      have hblock := flows_compileBody inputs body slots.enter hinputs hbody
      have harm := hblock.andThen (Code.flows_truncation (leave_compileBody hbody) hinputs)
      obtain ⟨hothers, hlast⟩ := keepsHeap_compileBranches inputs rest slots hinputs hrest
      have hcondition := Expr.keepsHeap_compile inputs slots condition htest
      have hnegate : Code.KeepsHeap inputs slots.nextSlot [.negate] := Code.keepsHeap_plain rfl
      have harms := hcondition.append (hnegate.append (Code.KeepsHeap.choice harm hothers))
      exact ⟨by simpa using harms, hlast⟩
termination_by structural branches => branches
end

end Statement

namespace Function

theorem keepsHeap_inputCheck {inputs slot : Nat} (input : Input) (hslot : slot < inputs) :
    (inputCheck input slot).KeepsHeap inputs inputs := by
  have hcheck : Code.KeepsHeap inputs inputs [.enforceSchema input.schema slot] :=
    Code.flows_step rfl (Instruction.heapEffect_slot rfl hslot)
  exact hcheck.append (Code.keepsHeap_raise "invalid input").skipOver

theorem keepsHeap_prologue {inputs : Nat} (rest : List Input) :
    ∀ slots : Slots, slots.nextSlot + rest.length ≤ inputs →
      (prologue slots rest).1.KeepsHeap inputs inputs := by
  induction rest with
  | nil =>
      intro slots _
      exact Code.keepsHeap_nil
  | cons input rest ih =>
      intro slots hslots
      rw [List.length_cons] at hslots
      have hrest : (slots.add input.name ()).nextSlot + rest.length ≤ inputs := by
        rw [Scope.nextSlot_add]
        omega
      exact (keepsHeap_inputCheck input (by omega)).append (ih _ hrest)

/-- The code of a function leads from the heap of the inputs to that of all its variables. -/
theorem flows_compile {f : Function} {code : Code} (h : f.compile = .ok code) :
    Code.Flows (HeapEffect f.inputs.length) code f.inputs.length
      [(0, f.inputs.length + f.body.countP Statement.isSave)] := by
  simp only [compile, bind_eq_ok, pure_eq_ok] at h
  obtain ⟨⟨body, after⟩, hbody, rfl⟩ := h
  have hnext : (prologue Scope.empty f.inputs).2.nextSlot = f.inputs.length := by
    rw [nextSlot_prologue]
    exact Nat.zero_add _
  have hassert : Code.KeepsHeap f.inputs.length f.inputs.length
      [.assertHeapLength f.inputs.length] := by
    refine Code.flows_step rfl ⟨⟨nofun, nofun, ?_⟩, rfl⟩
    rintro _ ⟨⟩
    rfl
  have hchecks : (prologue Scope.empty f.inputs).1.KeepsHeap f.inputs.length f.inputs.length :=
    keepsHeap_prologue f.inputs Scope.empty (Nat.le_of_eq (Nat.zero_add _))
  have hflow := Statement.flows_compileBody f.inputs.length f.body _ (Nat.le_of_eq hnext.symm) hbody
  rw [Statement.nextSlot_compileBody hbody, hnext] at hflow
  exact (hassert.append hchecks).andThen hflow

end Function

namespace Code

/-- The lengths of the heap at the positions of the code of a procedure. -/
structure HeapLayout (code : Code) (inputs final : Nat) (length : Nat → Nat) : Prop where
  start : length 0 = inputs
  asserted : code[0]? = some (.assertHeapLength inputs)
  fits : ∀ (pos : Nat) (instruction : Instruction), code[pos]? = some instruction →
    instruction.FitsHeap inputs (length pos)
  /-- Every move stays inside the code or leads to its end. -/
  moves : ∀ (pos : Nat) (instruction : Instruction), code[pos]? = some instruction →
    ∀ move ∈ instruction.moves, ∃ target : Nat, (target : Int) = pos + move ∧ target ≤ code.length ∧
      length target = instruction.heapAfter (length pos)
  finish : length code.length = final

/-- A step from a position and a length of the heap, whatever the operands are. -/
def HeapStep (code : Code) (before after : Nat × Nat) : Prop :=
  ∃ instruction, code[before.1]? = some instruction ∧
    (after.1 : Int) - before.1 ∈ instruction.moves ∧ after.2 = instruction.heapAfter before.2

theorem HeapLayout.length_of_walk {code : Code} {inputs final : Nat} {length : Nat → Nat}
    (h : HeapLayout code inputs final length) {reached : Nat × Nat}
    (hwalk : Relation.ReflTransGen code.HeapStep (0, inputs) reached) :
    reached.1 ≤ code.length ∧ reached.2 = length reached.1 := by
  induction hwalk with
  | refl => exact ⟨Nat.zero_le _, h.start.symm⟩
  | tail _ hstep ih =>
      obtain ⟨instruction, hinstruction, hmove, hafter⟩ := hstep
      obtain ⟨target, htarget, hinside, hlength⟩ := h.moves _ instruction hinstruction _ hmove
      rw [Int.add_comm, Int.sub_add_cancel, Int.natCast_inj] at htarget
      rw [hafter, ih.2, ← htarget]
      exact ⟨hinside, hlength.symm⟩

end Code

theorem Instruction.heapStep_of_exec {instruction : Instruction} {cursor : Nat} {m : Memory}
    {next : Machine} (h : instruction.exec cursor m = some (.running next)) :
    (next.cursor : Int) - cursor ∈ instruction.moves ∧
      next.memory.heap.length = instruction.heapAfter m.heap.length := by
  cases instruction <;>
    simp only [exec, bind_eq_some, pure_eq_some, exec_goOn, Option.some.injEq,
      Progress.running.injEq, Prod.exists] at h <;>
    grind [→ Memory.heap_of_pop, → Memory.heap_of_popBool, → Memory.heap_of_popInt, moves,
      heapAfter, Memory.heap_push]

theorem Machine.walk_of_steps {code : Code} {m last : Machine} (h : Steps code m last) :
    Relation.ReflTransGen code.HeapStep (m.cursor, m.memory.heap.length)
      (last.cursor, last.memory.heap.length) := by
  refine h.lift (fun m => (m.cursor, m.memory.heap.length)) fun before after hstep => ?_
  rw [Machine.step] at hstep
  split at hstep
  · cases hstep
  · rename_i instruction hinstruction
    exact ⟨instruction, hinstruction, Instruction.heapStep_of_exec hstep⟩

namespace Function

/-- The code of a function has a heap layout. Along every way through the code, and so in every run
of a machine, the length of the heap at a position is the one of the layout. -/
theorem exists_heapLayout {f : Function} {code : Code} (h : f.compile = .ok code) :
    ∃ length : Nat → Nat,
      code.HeapLayout f.inputs.length (f.inputs.length + f.body.countP Statement.isSave) length ∧
        (∀ pos reached, Relation.ReflTransGen code.HeapStep (0, f.inputs.length) (pos, reached) →
          pos ≤ code.length ∧ reached = length pos) ∧
        ∀ (args : List Datum) (m : Machine), args.length = f.inputs.length →
          Machine.Steps code (.start args) m →
          m.cursor ≤ code.length ∧ m.memory.heap.length = length m.cursor := by
  obtain ⟨length, hstart, hfinish, hflow⟩ := (flows_compile h).exists_levels
  have hlayout : code.HeapLayout f.inputs.length
      (f.inputs.length + f.body.countP Statement.isSave) length := by
    refine ⟨hstart, ?_, fun pos instruction hpos => ?_, fun pos instruction hpos => ?_, hfinish⟩
    · simp only [compile, bind_eq_ok, pure_eq_ok] at h
      obtain ⟨_, -, rfl⟩ := h
      rfl
    · obtain ⟨_, heffect, -⟩ := hflow pos instruction hpos
      exact heffect.1
    · obtain ⟨_, ⟨-, rfl⟩, hmoves⟩ := hflow pos instruction hpos
      exact hmoves
  refine ⟨length, hlayout, fun pos reached hwalk => hlayout.length_of_walk hwalk, ?_⟩
  intro args m hargs hsteps
  have hwalk := Machine.walk_of_steps hsteps
  rw [show (Machine.start args).memory.heap.length = f.inputs.length from hargs] at hwalk
  exact hlayout.length_of_walk hwalk

/-- Renames the users of some rows, and keeps count of those that are missing. -/
def renameUsers : Function where
  inputs := [⟨"rows", .null⟩, ⟨"name", .null⟩]
  body :=
    [.save "missing" (.array []),
      .forEach (.saved "rows") "row"
        [.choice
          [(.when (.keyExists "users" (.saved "row")),
              [.save "old" (.keyOfObject "users" [.saved "row", .string "name"]),
                .setKey "users" [.saved "row", .string "name"] (.saved "name"),
                .pushAtKey "log" [.saved "row"] [.saved "old"]]),
            (.otherwise, [.update (.saved "missing") [] (.push [.saved "row"])]),
            (.lastly, [.deleteKey "pending" [.saved "row"]])]],
      .save "all" (.keysOfObject "users"), .ret (some (.saved "missing"))]

theorem exists_heapLayout_renameUsers :
    ∃ (code : Code) (length : Nat → Nat),
      renameUsers.compile = .ok code ∧ code.HeapLayout 2 4 length := by
  obtain ⟨code, hcode⟩ : ∃ code, renameUsers.compile = .ok code := ⟨_, rfl⟩
  obtain ⟨length, hlayout, -⟩ := exists_heapLayout hcode
  exact ⟨code, length, hcode, hlayout⟩

end Function

end StoredProcedure
