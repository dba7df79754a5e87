import StoredProcedure.Code.Statement
import StoredProcedure.Proofs.Result
import StoredProcedure.Proofs.Scope

namespace StoredProcedure

theorem Slots.resolve_eq_ok {slots : Slots} {name : String} {slot : Nat} :
    slots.resolve name = .ok slot ↔ slots.slot? name = some slot := by
  rw [resolve]
  cases slots.slot? name with
  | none => simp
  | some other => simp

theorem Slots.resolve_lt {slots : Slots} {name : String} {slot : Nat}
    (h : slots.resolve name = .ok slot) : slot < slots.nextSlot :=
  Scope.slot?_lt (resolve_eq_ok.mp h)

namespace Statement

/-- The scope after a statement. -/
def scopeAfter (slots : Slots) : Statement → Slots
  | .save name _ => slots.add name ()
  | _ => slots

/-- Does a statement save a variable? -/
def isSave : Statement → Bool
  | .save _ _ => true
  | _ => false

theorem eq_scopeAfter_of_compile {slots after : Slots} {s : Statement} {code : Code}
    (h : s.compile slots = .ok (code, after)) : after = s.scopeAfter slots := by
  cases s with
  | ret value =>
      cases value with
      | none => simp_all [compile, scopeAfter]
      | some value =>
          simp only [compile, bind_eq_ok, pure_eq_ok] at h
          obtain ⟨_, _, hpair⟩ := h
          exact (Prod.mk.inj hpair).2.symm
  | save name value =>
      simp only [compile, bind_eq_ok, pure_eq_ok] at h
      obtain ⟨_, _, hpair⟩ := h
      exact (Prod.mk.inj hpair).2.symm
  | update target level edit =>
      cases target with
      | globalObject name => cases h
      | saved name =>
          simp only [compile, bind_eq_ok, pure_eq_ok] at h
          obtain ⟨_, _, _, _, hpair⟩ := h
          exact (Prod.mk.inj hpair).2.symm
  | choice branches =>
      simp only [compile, bind_eq_ok, pure_eq_ok] at h
      obtain ⟨_, _, ⟨_, _⟩, _, hpair⟩ := h
      exact (Prod.mk.inj hpair).2.symm
  | forEach source item body =>
      simp only [compile, bind_eq_ok, pure_eq_ok] at h
      obtain ⟨_, _, ⟨_, _⟩, _, hpair⟩ := h
      exact (Prod.mk.inj hpair).2.symm
  | call function args =>
      simp only [compile, bind_eq_ok, pure_eq_ok] at h
      obtain ⟨_, _, hpair⟩ := h
      exact (Prod.mk.inj hpair).2.symm
  | noop => simp_all [compile, scopeAfter]
  | setKey store key value =>
      cases key with
      | nil => cases h
      | cons first rest =>
          simp only [compile, bind_eq_ok, pure_eq_ok] at h
          obtain ⟨_, _, _, _, _, _, hpair⟩ := h
          exact (Prod.mk.inj hpair).2.symm
  | deleteKey store key =>
      cases key with
      | nil => cases h
      | cons first rest =>
          simp only [compile, bind_eq_ok, pure_eq_ok] at h
          obtain ⟨_, _, _, _, hpair⟩ := h
          exact (Prod.mk.inj hpair).2.symm
  | pushAtKey store key values =>
      cases key with
      | nil => cases h
      | cons first rest =>
          simp only [compile, bind_eq_ok, pure_eq_ok] at h
          obtain ⟨_, _, _, _, _, _, hpair⟩ := h
          exact (Prod.mk.inj hpair).2.symm

theorem outer_scopeAfter (slots : Slots) (s : Statement) :
    (s.scopeAfter slots).outer = slots.outer := by
  cases s <;> rfl

theorem nextSlot_scopeAfter (slots : Slots) (s : Statement) :
    (s.scopeAfter slots).nextSlot = slots.nextSlot + if s.isSave then 1 else 0 := by
  cases s <;> rfl

theorem outer_compileBody {slots after : Slots} {body : List Statement} {code : Code}
    (h : compileBody slots body = .ok (code, after)) : after.outer = slots.outer := by
  induction body generalizing slots code with
  | nil =>
      simp only [compileBody, Except.ok.injEq, Prod.mk.injEq] at h
      rw [h.2]
  | cons s rest ih =>
      simp only [compileBody, bind_eq_ok, pure_eq_ok] at h
      obtain ⟨⟨_, middle⟩, hs, ⟨_, final⟩, hrest, hpair⟩ := h
      obtain ⟨-, rfl⟩ := Prod.mk.inj hpair
      rw [ih hrest, eq_scopeAfter_of_compile hs, outer_scopeAfter]

theorem leave_compileBody {slots after : Slots} {body : List Statement} {code : Code}
    (h : compileBody slots body = .ok (code, after)) : after.leave = slots.leave := by
  rw [Scope.leave, Scope.leave, outer_compileBody h]

theorem nextSlot_compileBody {slots after : Slots} {body : List Statement} {code : Code}
    (h : compileBody slots body = .ok (code, after)) :
    after.nextSlot = slots.nextSlot + body.countP isSave := by
  induction body generalizing slots code with
  | nil =>
      simp only [compileBody, Except.ok.injEq, Prod.mk.injEq] at h
      rw [← h.2, List.countP_nil, Nat.add_zero]
  | cons s rest ih =>
      simp only [compileBody, bind_eq_ok, pure_eq_ok] at h
      obtain ⟨⟨_, middle⟩, hs, ⟨_, final⟩, hrest, hpair⟩ := h
      obtain ⟨-, rfl⟩ := Prod.mk.inj hpair
      rw [ih hrest, eq_scopeAfter_of_compile hs, nextSlot_scopeAfter, List.countP_cons,
        Nat.add_assoc, Nat.add_comm (List.countP _ _)]

end Statement

theorem Function.nextSlot_prologue (slots : Slots) (inputs : List Input) :
    (prologue slots inputs).2.nextSlot = slots.nextSlot + inputs.length := by
  induction inputs generalizing slots with
  | nil => rfl
  | cons input rest ih =>
      rw [prologue, ih, Scope.nextSlot_add, List.length_cons, Nat.add_assoc, Nat.add_comm 1]

end StoredProcedure
