import Mathlib.Data.List.Forall2
import Mathlib.Data.Option.Basic
import StoredProcedure.Proofs.Behaviour
import StoredProcedure.Proofs.Choice
import StoredProcedure.Proofs.StackLayout

namespace StoredProcedure

variable {ρ : Type} {effects : Effects ρ}

namespace Code

/-- A condition and the body that it guards. -/
structure Arm where
  test : Code
  body : Code
  test_closed : test.Closed
  body_closed : body.Closed

namespace Arm

variable (arm : Arm) {more : Code} {s t : State ρ} {p : Nat}

/-- The arm, before the code for the case that its condition is false. -/
def before (more : Code) : Code :=
  arm.test ++ .negate :: .skipIf (arm.body.length + 1) ::
    (arm.body ++ .jumpForward more.length :: more)

/-- The length of the arm itself. -/
def size : Nat :=
  arm.test.length + 2 + arm.body.length + 1

theorem length_before (more : Code) : (arm.before more).length = arm.size + more.length := by
  simp only [before, size, List.length_append, List.length_cons]
  omega

theorem closed_skip (hmore : more.Closed) :
    Closed (.skipIf (arm.body.length + 1) ::
      (arm.body ++ .jumpForward more.length :: more)) := by
  refine closed_cons (fun move hmove => ?_) (arm.body_closed.append (closed_jumpToEnd hmore))
  rw [List.length_append, List.length_cons]
  rcases List.mem_pair.mp hmove with rfl | rfl <;> omega

theorem closed_negate (hmore : more.Closed) :
    Closed (.negate :: .skipIf (arm.body.length + 1) ::
      (arm.body ++ .jumpForward more.length :: more)) := by
  refine closed_cons (fun move hmove => ?_) (arm.closed_skip hmore)
  obtain rfl := List.mem_singleton.mp hmove
  omega

theorem closed_before (hmore : more.Closed) : (arm.before more).Closed :=
  arm.test_closed.append (arm.closed_negate hmore)

theorem reaches_negate (hmore : more.Closed) :
    Reaches effects (.negate :: .skipIf (arm.body.length + 1) ::
        (arm.body ++ .jumpForward more.length :: more)) s p t ↔
      (p = 0 ∧ t = s) ∨
        (p = 1 ∧ ∃ value u, s.Pops value u ∧ t = u.push (.bool (!value))) ∨
        (∃ u q, s.Pops true u ∧ q ≤ arm.body.length ∧ p = q + 2 ∧ arm.body.Reaches effects u q t) ∨
        (∃ u q, s.Pops false u ∧ p = arm.body.length + 3 + q ∧ more.Reaches effects u q t) ∨
        (p = arm.body.length + 3 + more.length ∧
          ∃ u, s.Pops true u ∧ arm.body.Passes effects u t) := by
  have hmoves : Instruction.negate.moves = [1] := rfl
  rw [reaches_cons_step hmoves (arm.closed_skip hmore).forward]
  simp only [reaches_choice arm.body_closed hmore.forward]
  refine or_congr Iff.rfl ⟨?_, ?_⟩
  · rintro ⟨_, _, ⟨value, w, hpops, rfl, -⟩, rfl, h⟩
    rcases h with ⟨rfl, rfl⟩ | ⟨u, q, hother, hle, rfl, hrun⟩ | ⟨u, q, hother, rfl, hrun⟩ |
      ⟨rfl, u, hother, hbody⟩
    · exact .inl ⟨rfl, value, w, hpops, rfl⟩
    all_goals
      obtain ⟨hvalue, rfl⟩ := State.pops_push.mp hother
      cases value <;> cases hvalue
    · exact .inr (.inl ⟨_, q, hpops, hle, rfl, hrun⟩)
    · exact .inr (.inr (.inl ⟨_, q, hpops, by omega, hrun⟩))
    · exact .inr (.inr (.inr ⟨by omega, _, hpops, hbody⟩))
  · have hpush : ∀ (w : State ρ) (value : Bool),
        (w.push (.bool (!value))).Pops (!value) w := fun _ _ => rfl
    rintro (⟨rfl, value, w, hpops, rfl⟩ | ⟨w, q, hpops, hle, rfl, hrun⟩ | ⟨w, q, hpops, rfl, hrun⟩ |
      ⟨rfl, w, hpops, hbody⟩)
    · exact ⟨_, 0, ⟨value, w, hpops, rfl, rfl⟩, rfl, .inl ⟨rfl, rfl⟩⟩
    · exact ⟨_, q + 1, ⟨true, w, hpops, rfl, rfl⟩, rfl,
        .inr (.inl ⟨w, q, hpush w true, hle, rfl, hrun⟩)⟩
    · exact ⟨_, arm.body.length + 2 + q, ⟨false, w, hpops, rfl, rfl⟩, by omega,
        .inr (.inr (.inl ⟨w, q, hpush w false, rfl, hrun⟩))⟩
    · exact ⟨_, arm.body.length + 2 + more.length, ⟨true, w, hpops, rfl, rfl⟩, by omega,
        .inr (.inr (.inr ⟨rfl, w, hpush w true, hbody⟩))⟩

/-- All that is reached in an arm and in what stands behind it. -/
theorem reaches_before (hmore : more.Closed) :
    (arm.before more).Reaches effects s p t ↔
      (p ≤ arm.test.length ∧ arm.test.Reaches effects s p t) ∨
        (p = arm.test.length + 1 ∧
          ∃ value u, arm.test.Decides effects s value u ∧ t = u.push (.bool (!value))) ∨
        (∃ u q, arm.test.Decides effects s true u ∧ q ≤ arm.body.length ∧
          p = arm.test.length + 2 + q ∧ arm.body.Reaches effects u q t) ∨
        (∃ u q, arm.test.Decides effects s false u ∧ p = arm.size + q ∧
          more.Reaches effects u q t) ∨
        (p = arm.size + more.length ∧
          ∃ u, arm.test.Decides effects s true u ∧ arm.body.Passes effects u t) := by
  rw [before, size, reaches_append arm.test_closed (arm.closed_negate hmore).forward]
  simp only [arm.reaches_negate hmore]
  constructor
  · rintro (⟨hlt, hrun⟩ | ⟨v, _, hpasses, rfl, ⟨rfl, rfl⟩ | ⟨rfl, value, w, hpops, rfl⟩ |
      ⟨w, q, hpops, hle, rfl, hrun⟩ | ⟨w, q, hpops, rfl, hrun⟩ | ⟨rfl, w, hpops, hbody⟩⟩)
    · exact .inl ⟨Nat.le_of_lt hlt, hrun⟩
    · exact .inl ⟨Nat.le_refl _, hpasses⟩
    · exact .inr (.inl ⟨rfl, value, w, ⟨v, hpasses, hpops⟩, rfl⟩)
    · exact .inr (.inr (.inl ⟨w, q, ⟨v, hpasses, hpops⟩, hle, by omega, hrun⟩))
    · exact .inr (.inr (.inr (.inl ⟨w, q, ⟨v, hpasses, hpops⟩, by omega, hrun⟩)))
    · exact .inr (.inr (.inr (.inr ⟨by omega, w, ⟨v, hpasses, hpops⟩, hbody⟩)))
  · rintro (⟨hle, hrun⟩ | ⟨rfl, value, w, ⟨v, hpasses, hpops⟩, rfl⟩ |
      ⟨w, q, ⟨v, hpasses, hpops⟩, hle, rfl, hrun⟩ | ⟨w, q, ⟨v, hpasses, hpops⟩, rfl, hrun⟩ |
      ⟨rfl, w, ⟨v, hpasses, hpops⟩, hbody⟩)
    · rcases Nat.eq_or_lt_of_le hle with rfl | hlt
      · exact .inr ⟨t, 0, hrun, rfl, .inl ⟨rfl, rfl⟩⟩
      · exact .inl ⟨hlt, hrun⟩
    · exact .inr ⟨v, 1, hpasses, rfl, .inr (.inl ⟨rfl, value, w, hpops, rfl⟩)⟩
    · exact .inr ⟨v, q + 2, hpasses, by omega, .inr (.inr (.inl ⟨w, q, hpops, hle, rfl, hrun⟩))⟩
    · exact .inr ⟨v, arm.body.length + 3 + q, hpasses, by omega,
        .inr (.inr (.inr (.inl ⟨w, q, hpops, rfl, hrun⟩)))⟩
    · exact .inr ⟨v, arm.body.length + 3 + more.length, hpasses, by omega,
        .inr (.inr (.inr (.inr ⟨rfl, w, hpops, hbody⟩)))⟩

theorem reaches_test (hmore : more.Closed) (hp : p ≤ arm.test.length) :
    (arm.before more).Reaches effects s p t ↔ arm.test.Reaches effects s p t := by
  rw [arm.reaches_before hmore, size, and_iff_right hp]
  apply or_iff_left
  rintro (⟨rfl, -⟩ | ⟨_, q, -, -, rfl, -⟩ | ⟨_, q, -, rfl, -⟩ | ⟨rfl, -⟩) <;> omega

theorem reaches_body (hmore : more.Closed) (hp : p ≤ arm.body.length) :
    (arm.before more).Reaches effects s (arm.test.length + 2 + p) t ↔
      ∃ u, arm.test.Decides effects s true u ∧ arm.body.Reaches effects u p t := by
  rw [arm.reaches_before hmore, size]
  constructor
  · rintro (⟨hle, -⟩ | ⟨hp, -⟩ | ⟨u, q, hdecides, -, hq, hrun⟩ | ⟨_, q, -, hq, -⟩ | ⟨hq, -⟩)
    · omega
    · omega
    · obtain rfl : p = q := by omega
      exact ⟨u, hdecides, hrun⟩
    · omega
    · omega
  · rintro ⟨u, hdecides, hrun⟩
    exact .inr (.inr (.inl ⟨u, p, hdecides, hp, rfl, hrun⟩))

theorem reaches_behind (hmore : more.Closed) (hp : p < more.length) :
    (arm.before more).Reaches effects s (arm.size + p) t ↔
      ∃ u, arm.test.Decides effects s false u ∧ more.Reaches effects u p t := by
  rw [arm.reaches_before hmore, size]
  constructor
  · rintro (⟨hle, -⟩ | ⟨hq, -⟩ | ⟨_, q, -, hle, hq, -⟩ | ⟨u, q, hdecides, hq, hrun⟩ | ⟨hq, -⟩)
    · omega
    · omega
    · omega
    · obtain rfl : p = q := by omega
      exact ⟨u, hdecides, hrun⟩
    · omega
  · rintro ⟨u, hdecides, hrun⟩
    exact .inr (.inr (.inr (.inl ⟨u, p, hdecides, rfl, hrun⟩)))

theorem passes_before (hmore : more.Closed) :
    (arm.before more).Passes effects s t ↔
      (∃ u, arm.test.Decides effects s true u ∧ arm.body.Passes effects u t) ∨
        ∃ u, arm.test.Decides effects s false u ∧ more.Passes effects u t := by
  rw [Passes, length_before, arm.reaches_before hmore, size]
  constructor
  · rintro (⟨hle, -⟩ | ⟨hq, -⟩ | ⟨_, q, -, hle, hq, -⟩ | ⟨u, q, hdecides, hq, hrun⟩ | ⟨-, h⟩)
    · omega
    · omega
    · omega
    · obtain rfl : more.length = q := by omega
      exact .inr ⟨u, hdecides, hrun⟩
    · exact .inl h
  · rintro (h | ⟨u, hdecides, hpasses⟩)
    · exact .inr (.inr (.inr (.inr ⟨rfl, h⟩)))
    · exact .inr (.inr (.inr (.inl ⟨u, more.length, hdecides, rfl, hpasses⟩)))

end Arm

variable {arms rest : List Arm} {final : Code} {s t : State ρ} {p : Nat}

/-- Arms one behind the other, before the code for the case that all their conditions are false. -/
def cascade (arms : List Arm) (final : Code) : Code :=
  arms.foldr Arm.before final

/-- The length of arms, which is where the next one starts. -/
def size : List Arm → Nat
  | [] => 0
  | arm :: rest => arm.size + size rest

/-- The conditions of arms are tested one after the other, and all are false. -/
def Falls (effects : Effects ρ) : List Arm → State ρ → State ρ → Prop
  | [], s, t => t = s
  | arm :: rest, s, t => ∃ u, arm.test.Decides effects s false u ∧ Falls effects rest u t

/-- Of arms that are tested one after the other, the one behind `before` is the first whose
condition is true. -/
def Takes (effects : Effects ρ) (before : List Arm) (arm : Arm) (s t : State ρ) : Prop :=
  ∃ u, Falls effects before s u ∧ arm.test.Decides effects u true t

theorem size_cons (arm : Arm) (rest : List Arm) : size (arm :: rest) = arm.size + size rest :=
  rfl

theorem size_append (before rest : List Arm) : size (before ++ rest) = size before + size rest := by
  induction before with
  | nil => exact (Nat.zero_add _).symm
  | cons arm others ih => rw [List.cons_append, size_cons, size_cons, ih, Nat.add_assoc]

theorem length_cascade (arms : List Arm) (final : Code) :
    (cascade arms final).length = size arms + final.length := by
  induction arms with
  | nil => exact (Nat.zero_add _).symm
  | cons arm rest ih =>
      rw [size_cons, Nat.add_assoc, ← ih]
      exact arm.length_before (cascade rest final)

theorem closed_cascade (hfinal : final.Closed) (arms : List Arm) : (cascade arms final).Closed := by
  induction arms with
  | nil => exact hfinal
  | cons arm rest ih => exact arm.closed_before ih

theorem reaches_behind (hfinal : final.Closed) (before : List Arm)
    (hp : p < (cascade rest final).length) :
    (cascade (before ++ rest) final).Reaches effects s (size before + p) t ↔
      ∃ u, Falls effects before s u ∧ (cascade rest final).Reaches effects u p t := by
  induction before generalizing s with
  | nil =>
      have hsize : size [] + p = p := Nat.zero_add p
      simp only [hsize, List.nil_append, Falls, exists_eq_left]
  | cons arm before ih =>
      have hbehind : size before + p < (cascade (before ++ rest) final).length := by
        rw [length_cascade] at hp ⊢
        rw [size_append]
        omega
      have hclosed := closed_cascade hfinal (before ++ rest)
      rw [size_cons, Nat.add_assoc]
      refine (arm.reaches_behind hclosed hbehind).trans ?_
      simp only [ih, Falls]
      constructor
      · rintro ⟨v, hdecides, u, hfalls, hrun⟩
        exact ⟨u, ⟨v, hdecides, hfalls⟩, hrun⟩
      · rintro ⟨u, ⟨v, hdecides, hfalls⟩, hrun⟩
        exact ⟨v, hdecides, u, hfalls, hrun⟩

/-- A cascade is left from the body of the first arm whose condition is true, or from what stands
behind all arms. -/
theorem passes_cascade (hfinal : final.Closed) :
    (cascade arms final).Passes effects s t ↔
      (∃ before arm rest, arms = before ++ arm :: rest ∧
        ∃ u, Takes effects before arm s u ∧ arm.body.Passes effects u t) ∨
      ∃ u, Falls effects arms s u ∧ final.Passes effects u t := by
  induction arms generalizing s with
  | nil =>
      have hnone : ¬∃ before arm rest, [] = before ++ arm :: rest ∧
          ∃ u, Takes effects before arm s u ∧ arm.body.Passes effects u t := by
        rintro ⟨before, arm, rest, harms, -⟩
        simp at harms
      rw [or_iff_right hnone]
      simp only [Falls, exists_eq_left]
      rfl
  | cons first arms ih =>
      refine (first.passes_before (closed_cascade hfinal arms)).trans ?_
      rw [cascade] at ih
      simp only [cascade, ih, Falls, Takes]
      constructor
      · rintro (⟨u, hdecides, hbody⟩ | ⟨v, hdecides, ⟨before, arm, rest, rfl, u, ⟨w, hfalls, htrue⟩,
          hbody⟩ | ⟨u, hfalls, hlast⟩⟩)
        · exact .inl ⟨[], first, arms, rfl, u, ⟨s, rfl, hdecides⟩, hbody⟩
        · exact .inl ⟨first :: before, arm, rest, rfl, u, ⟨w, ⟨v, hdecides, hfalls⟩, htrue⟩, hbody⟩
        · exact .inr ⟨u, ⟨v, hdecides, hfalls⟩, hlast⟩
      · rintro (⟨_ | ⟨other, before⟩, arm, rest, harms, u, ⟨w, hfalls, htrue⟩, hbody⟩ |
          ⟨u, ⟨v, hdecides, hfalls⟩, hlast⟩)
        · obtain ⟨rfl, rfl⟩ := List.cons.inj harms
          obtain rfl : w = s := hfalls
          exact .inl ⟨u, htrue, hbody⟩
        · obtain ⟨rfl, rfl⟩ := List.cons.inj harms
          obtain ⟨v, hdecides, hfalls⟩ := hfalls
          exact .inr ⟨v, hdecides, .inl ⟨before, arm, rest, rfl, u, ⟨w, hfalls, htrue⟩, hbody⟩⟩
        · exact .inr ⟨v, hdecides, .inr ⟨u, hfalls, hlast⟩⟩

theorem exists_cascade_eq (before rest : List Arm) (final : Code) :
    ∃ front : Code, front.length = size before ∧
      cascade (before ++ rest) final = front ++ cascade rest final := by
  induction before with
  | nil => exact ⟨[], rfl, rfl⟩
  | cons arm before ih =>
      obtain ⟨front, hlength, hfront⟩ := ih
      refine ⟨arm.test ++ .negate :: .skipIf (arm.body.length + 1) ::
        (arm.body ++ .jumpForward (cascade (before ++ rest) final).length :: front), ?_, ?_⟩
      · simp only [List.length_append, List.length_cons, hlength, size_cons, Arm.size]
        omega
      · simp only [List.append_assoc, List.cons_append]
        rw [← hfront]
        rfl

theorem runs_part {front body more last : Code} (hbody : body.Closed) (hmore : more.Forward)
    (hlast : last.Forward) {q : Nat} :
    (front ++ (body ++ Instruction.jumpForward more.length :: (more ++ last))).Runs effects
        (front.length, s) (q, t) ↔
      (∃ r, r ≤ body.length ∧ q = front.length + r ∧ body.Reaches effects s r t) ∨
        ∃ u r, body.Passes effects s u ∧ q = front.length + (body.length + 1 + more.length) + r ∧
          last.Reaches effects u r t := by
  have hjump := forward_jumpForward more.length (hmore.append hlast)
  have hright := @runs_append_right ρ effects front _ s t 0 q (hbody.forward.append hjump)
  refine hright.trans ⟨?_, ?_⟩
  · rintro ⟨q, rfl, hrun⟩
    rcases (reaches_append hbody hjump).mp hrun with ⟨hlt, hinside⟩ | ⟨u, q, hpasses, rfl, hrest⟩
    · exact .inl ⟨q, Nat.le_of_lt hlt, rfl, hinside⟩
    · rcases (reaches_jumpOver hmore hlast).mp hrest with ⟨rfl, rfl⟩ | ⟨r, rfl, hlastRun⟩
      · exact .inl ⟨body.length, Nat.le_refl _, rfl, hpasses⟩
      · exact .inr ⟨u, r, hpasses, by omega, hlastRun⟩
  · rintro (⟨r, -, rfl, hrun⟩ | ⟨u, r, hpasses, rfl, hrun⟩)
    · exact ⟨r, rfl, hrun.append_left _⟩
    · refine ⟨body.length + (more.length + 1 + r), by omega, ?_⟩
      exact (reaches_append_right hbody hjump).mpr
        ⟨u, hpasses, (reaches_jumpOver hmore hlast).mpr (.inr ⟨r, rfl, hrun⟩)⟩

theorem reaches_jump :
    Reaches effects [.jumpForward 0] s p t ↔ (p = 0 ∨ p = 1) ∧ t = s :=
  @reaches_jumpToEnd ρ effects [] s t p forward_nil

theorem reaches_beforeJump {body : Code} (hbody : body.Closed) (hp : p ≤ body.length) :
    (body ++ [Instruction.jumpForward 0]).Reaches effects s p t ↔ body.Reaches effects s p t := by
  rcases Nat.eq_or_lt_of_le hp with rfl | hlt
  · exact reaches_end hbody forward_nil (by decide)
  · exact reaches_append_left hbody (forward_jumpForward 0 forward_nil) hlt

/-- A choice: its arms, the body for when no condition is true, and what is run last. -/
structure Branching where
  arms : List Arm
  otherwise : Option Code
  last : Code
  otherwise_closed : ∀ body ∈ otherwise, body.Closed
  last_closed : last.Closed

namespace Branching

/-- What stands behind the arms. -/
def fallback (b : Branching) : Code :=
  match b.otherwise with
  | none => []
  | some body => body ++ [.jumpForward 0]

/-- The code up to what is run last. -/
def selection (b : Branching) : Code :=
  cascade b.arms b.fallback

def code (b : Branching) : Code :=
  b.selection ++ b.last

/-- The body of the first arm whose condition is true is run to its end, or the body for when there
is none, if any. -/
def Settles (b : Branching) (effects : Effects ρ) (s t : State ρ) : Prop :=
  (∃ before arm rest, b.arms = before ++ arm :: rest ∧
    ∃ u, Takes effects before arm s u ∧ arm.body.Passes effects u t) ∨
  ∃ u, Falls effects b.arms s u ∧ (b.otherwise.getD []).Passes effects u t

/-- From a position on, a body is run and nothing else before what is run last. -/
def Onward (b : Branching) (effects : Effects ρ) (pos : Nat) (body : Code) : Prop :=
  ∀ s q t, b.code.Runs effects (pos, s) (q, t) ↔
    (∃ r, r ≤ body.length ∧ q = pos + r ∧ body.Reaches effects s r t) ∨
      ∃ u r, body.Passes effects s u ∧ q = b.selection.length + r ∧ b.last.Reaches effects u r t

/-- The ways through a choice. -/
structure Flow (b : Branching) (effects : Effects ρ) : Prop where
  /-- A condition is tested exactly if all conditions before it were false. -/
  test : ∀ before arm rest, b.arms = before ++ arm :: rest → ∀ s p t, p ≤ arm.test.length →
    (b.code.Reaches effects s (size before + p) t ↔
      ∃ u, Falls effects before s u ∧ arm.test.Reaches effects u p t)
  /-- A body is run exactly if its condition is the first that was true. -/
  body : ∀ before arm rest, b.arms = before ++ arm :: rest → ∀ s p t, p ≤ arm.body.length →
    (b.code.Reaches effects s (size before + (arm.test.length + 2 + p)) t ↔
      ∃ u, Takes effects before arm s u ∧ arm.body.Reaches effects u p t)
  otherwise : ∀ body, b.otherwise = some body → ∀ s p t, p ≤ body.length →
    (b.code.Reaches effects s (size b.arms + p) t ↔
      ∃ u, Falls effects b.arms s u ∧ body.Reaches effects u p t)
  /-- No second body is run: from a body one comes to what is run last. -/
  body_onward : ∀ before arm rest, b.arms = before ++ arm :: rest →
    b.Onward effects (size before + (arm.test.length + 2)) arm.body
  otherwise_onward : ∀ body, b.otherwise = some body → b.Onward effects (size b.arms) body
  last : ∀ s p t, b.code.Reaches effects s (b.selection.length + p) t ↔
    ∃ u, b.Settles effects s u ∧ b.last.Reaches effects u p t
  /-- The choice is left at its end only, which is the end of what is run last. -/
  leaves : ∀ s t, b.code.Passes effects s t ↔
    ∃ u, b.Settles effects s u ∧ b.last.Passes effects u t
  inside : ∀ s p t, b.code.Reaches effects s p t → p ≤ b.code.length
  anywhere : b.code.RunsAnywhere effects

variable (b : Branching)

theorem closed_fallback : b.fallback.Closed := by
  rw [fallback]
  split
  · exact closed_nil
  · rename_i body hbody
    have hjump : Closed [.jumpForward 0] := closed_jumpToEnd closed_nil
    exact (b.otherwise_closed body hbody).append hjump

theorem passes_fallback :
    b.fallback.Passes effects s t ↔ (b.otherwise.getD []).Passes effects s t := by
  rw [fallback]
  split
  · rename_i hnone
    rw [hnone]
    rfl
  · rename_i body hbody
    have hclosed := b.otherwise_closed body hbody
    rw [hbody, passes_append hclosed (forward_jumpForward 0 forward_nil)]
    simp only [Passes, List.length_singleton, reaches_jump, or_true, true_and, exists_eq_right',
      Option.getD_some]

theorem closed_selection : b.selection.Closed :=
  closed_cascade b.closed_fallback b.arms

theorem closed_code : b.code.Closed :=
  b.closed_selection.append b.last_closed

theorem passes_selection : b.selection.Passes effects s t ↔ b.Settles effects s t := by
  rw [selection, passes_cascade b.closed_fallback, Settles]
  simp only [passes_fallback]

variable {b} {before rest : List Arm} {arm : Arm} {body : Code}

theorem reaches_code (harms : b.arms = before ++ rest)
    (hp : p < (cascade rest b.fallback).length) :
    b.code.Reaches effects s (size before + p) t ↔
      ∃ u, Falls effects before s u ∧ (cascade rest b.fallback).Reaches effects u p t := by
  have hselection : size before + p < b.selection.length := by
    rw [length_cascade] at hp
    rw [selection, length_cascade, harms, size_append]
    omega
  rw [code, reaches_append_left b.closed_selection b.last_closed.forward hselection, selection,
    harms, reaches_behind b.closed_fallback before hp]

theorem flow_test (harms : b.arms = before ++ arm :: rest) (hp : p ≤ arm.test.length) :
    b.code.Reaches effects s (size before + p) t ↔
      ∃ u, Falls effects before s u ∧ arm.test.Reaches effects u p t := by
  have hinside : p < (cascade (arm :: rest) b.fallback).length := by
    rw [length_cascade, size_cons, Arm.size]
    omega
  rw [reaches_code harms hinside]
  exact exists_congr fun u => and_congr_right fun _ =>
    arm.reaches_test (closed_cascade b.closed_fallback rest) hp

theorem flow_body (harms : b.arms = before ++ arm :: rest) (hp : p ≤ arm.body.length) :
    b.code.Reaches effects s (size before + (arm.test.length + 2 + p)) t ↔
      ∃ u, Takes effects before arm s u ∧ arm.body.Reaches effects u p t := by
  have hinside : arm.test.length + 2 + p < (cascade (arm :: rest) b.fallback).length := by
    rw [length_cascade, size_cons, Arm.size]
    omega
  have hbody : ∀ u, (cascade (arm :: rest) b.fallback).Reaches effects u
      (arm.test.length + 2 + p) t ↔ _ := fun u =>
    arm.reaches_body (closed_cascade b.closed_fallback rest) hp
  rw [reaches_code harms hinside]
  simp only [hbody, Takes]
  constructor
  · rintro ⟨v, hfalls, u, hdecides, hrun⟩
    exact ⟨u, ⟨v, hfalls, hdecides⟩, hrun⟩
  · rintro ⟨u, ⟨v, hfalls, hdecides⟩, hrun⟩
    exact ⟨v, hfalls, u, hdecides, hrun⟩

theorem flow_otherwise (hbody : b.otherwise = some body) (hp : p ≤ body.length) :
    b.code.Reaches effects s (size b.arms + p) t ↔
      ∃ u, Falls effects b.arms s u ∧ body.Reaches effects u p t := by
  have harms : b.arms = b.arms ++ [] := (List.append_nil _).symm
  have hfallback : cascade [] b.fallback = body ++ [.jumpForward 0] := by
    rw [cascade, List.foldr_nil, fallback, hbody]
  have hinside : p < (cascade [] b.fallback).length := by
    rw [hfallback, List.length_append]
    exact Nat.lt_succ_of_le hp
  rw [reaches_code harms hinside, hfallback]
  exact exists_congr fun u => and_congr_right fun _ =>
    reaches_beforeJump (b.otherwise_closed body hbody) hp

theorem onward_of_code {front more : Code} (hbody : body.Closed) (hmore : more.Forward)
    (hcode : b.code = front ++ (body ++ .jumpForward more.length :: (more ++ b.last))) :
    b.Onward effects front.length body := by
  have hselection : b.selection.length = front.length + (body.length + 1 + more.length) := by
    have hlength := congrArg List.length hcode
    simp only [code, List.length_append, List.length_cons] at hlength
    omega
  intro s q t
  rw [hcode, hselection]
  exact runs_part hbody hmore b.last_closed.forward

theorem onward_body (harms : b.arms = before ++ arm :: rest) :
    b.Onward effects (size before + (arm.test.length + 2)) arm.body := by
  obtain ⟨front, hfront, hcascade⟩ := exists_cascade_eq before (arm :: rest) b.fallback
  have hcode : b.code = (front ++ arm.test ++ [.negate, .skipIf (arm.body.length + 1)]) ++
      (arm.body ++ .jumpForward (cascade rest b.fallback).length ::
        (cascade rest b.fallback ++ b.last)) := by
    rw [code, selection, harms, hcascade]
    simp [cascade, Arm.before]
  have hpos : (front ++ arm.test ++ [Instruction.negate, .skipIf (arm.body.length + 1)]).length =
      size before + (arm.test.length + 2) := by
    simp only [List.length_append, List.length_cons, List.length_nil, hfront]
    omega
  rw [← hpos]
  exact onward_of_code arm.body_closed (closed_cascade b.closed_fallback rest).forward hcode

theorem onward_otherwise (hbody : b.otherwise = some body) :
    b.Onward effects (size b.arms) body := by
  obtain ⟨front, hfront, hcascade⟩ := exists_cascade_eq b.arms [] b.fallback
  have hcode : b.code = front ++ (body ++ .jumpForward 0 :: ([] ++ b.last)) := by
    rw [List.append_nil] at hcascade
    rw [code, selection, hcascade]
    simp [cascade, fallback, hbody]
  rw [← hfront]
  exact onward_of_code (b.otherwise_closed body hbody) forward_nil hcode

theorem flow (b : Branching) (effects : Effects ρ) : b.Flow effects where
  test _ _ _ harms _ _ _ hp := flow_test harms hp
  body _ _ _ harms _ _ _ hp := flow_body harms hp
  otherwise _ hbody _ _ _ hp := flow_otherwise hbody hp
  body_onward _ _ _ harms := onward_body harms
  otherwise_onward _ hbody := onward_otherwise hbody
  last s p t := by
    rw [code, reaches_append_right b.closed_selection b.last_closed.forward]
    simp only [passes_selection]
  leaves s t := by
    rw [code, passes_append b.closed_selection b.last_closed.forward]
    simp only [passes_selection]
  inside _ _ _ hrun := b.closed_code.le_of_reaches hrun
  anywhere := b.closed_code.forward.runsAnywhere

end Branching

/-- A loop: what leaves the array, the test whether it is empty, and what is run for each item. -/
structure Repetition where
  source : Code
  test : Code
  round : Code
  source_closed : source.Closed
  test_closed : test.Closed
  round_closed : round.Closed

namespace Repetition

def code (l : Repetition) : Code :=
  l.source ++ ((l.test ++ .skipIf (l.round.length + 1) :: l.round) ++
    [.jumpBack (l.test.length + 1 + l.round.length), .popStack])

/-- The array is made, and any number of rounds are run. -/
def Comes (l : Repetition) (effects : Effects ρ) (s t : State ρ) : Prop :=
  ∃ u, l.source.Passes effects s u ∧ Rounds effects l.test l.round u t

/-- The ways through a loop. -/
structure Flow (l : Repetition) (effects : Effects ρ) : Prop where
  /-- What makes the array is run once. -/
  source : ∀ s p t, p < l.source.length →
    (l.code.Reaches effects s p t ↔ l.source.Reaches effects s p t)
  test : ∀ s p t, p ≤ l.test.length →
    (l.code.Reaches effects s (l.source.length + p) t ↔
      ∃ u, l.Comes effects s u ∧ l.test.Reaches effects u p t)
  /-- A round is run exactly if the test was false. -/
  round : ∀ s p t, p ≤ l.round.length →
    (l.code.Reaches effects s (l.source.length + (l.test.length + 1 + p)) t ↔
      ∃ u v, l.Comes effects s u ∧ l.test.Decides effects u false v ∧ l.round.Reaches effects v p t)
  /-- From the end of a round one comes to the test. -/
  again : ∀ s q t,
    l.code.Step effects (l.source.length + (l.test.length + 1 + l.round.length), s) (q, t) ↔
      q = l.source.length ∧ t = s
  /-- Behind the rounds one comes exactly if the test was true. -/
  exit : ∀ s t,
    l.code.Reaches effects s (l.source.length + (l.test.length + 1 + (l.round.length + 1))) t ↔
      ∃ u, l.Comes effects s u ∧ l.test.Decides effects u true t
  leaves : ∀ s t, l.code.Passes effects s t ↔
    ∃ u v, l.Comes effects s u ∧ l.test.Decides effects u true v ∧ effects .popStack v t
  inside : ∀ s p t, l.code.Reaches effects s p t → p ≤ l.code.length
  anywhere : l.code.RunsAnywhere effects

variable (l : Repetition)

theorem forward_popStack : Forward [.popStack] :=
  forward_effect rfl forward_nil

theorem forward_rounds : Forward ((l.test ++ .skipIf (l.round.length + 1) :: l.round) ++
    [Instruction.jumpBack (l.test.length + 1 + l.round.length), .popStack]) := by
  have hskip := forward_skipIf (l.round.length + 1) l.round_closed.forward
  rw [← length_guarded l.test l.round (l.round.length + 1)]
  exact (l.test_closed.forward.append hskip).again forward_popStack

theorem reaches_rounds : l.code.Reaches effects s (l.source.length + p) t ↔
    ∃ u, l.Comes effects s u ∧
      ((p ≤ l.test.length ∧ l.test.Reaches effects u p t) ∨
        (∃ v q, l.test.Decides effects u false v ∧ q ≤ l.round.length ∧
          p = l.test.length + 1 + q ∧ l.round.Reaches effects v q t) ∨
        ∃ v, l.test.Decides effects u true v ∧
          ((p = l.test.length + 1 + (l.round.length + 1) ∧ t = v) ∨
            (p = l.test.length + 1 + (l.round.length + 1) + 1 ∧ effects .popStack v t))) := by
  have hpop : Instruction.popStack.isEffect = true := rfl
  rw [code, reaches_append_right l.source_closed l.forward_rounds]
  simp only [reaches_loop l.test_closed l.round_closed forward_popStack,
    reaches_effect_single hpop, Comes]
  constructor
  · rintro ⟨u, hsource, w, hrounds, h | h | ⟨v, q, hdecides, rfl, ⟨rfl, rfl⟩ | ⟨rfl, heffect⟩⟩⟩
    · exact ⟨w, ⟨u, hsource, hrounds⟩, .inl h⟩
    · exact ⟨w, ⟨u, hsource, hrounds⟩, .inr (.inl h)⟩
    · exact ⟨w, ⟨u, hsource, hrounds⟩, .inr (.inr ⟨_, hdecides, .inl ⟨rfl, rfl⟩⟩)⟩
    · exact ⟨w, ⟨u, hsource, hrounds⟩, .inr (.inr ⟨v, hdecides, .inr ⟨rfl, heffect⟩⟩)⟩
  · rintro ⟨w, ⟨u, hsource, hrounds⟩, h | h | ⟨v, hdecides, ⟨rfl, rfl⟩ | ⟨rfl, heffect⟩⟩⟩
    · exact ⟨u, hsource, w, hrounds, .inl h⟩
    · exact ⟨u, hsource, w, hrounds, .inr (.inl h)⟩
    · exact ⟨u, hsource, w, hrounds, .inr (.inr ⟨_, 0, hdecides, rfl, .inl ⟨rfl, rfl⟩⟩)⟩
    · exact ⟨u, hsource, w, hrounds, .inr (.inr ⟨v, 1, hdecides, rfl, .inr ⟨rfl, heffect⟩⟩)⟩

theorem length_code :
    l.code.length = l.source.length + (l.test.length + 1 + (l.round.length + 1) + 1) := by
  simp only [code, List.length_append, List.length_cons, List.length_nil]
  omega

theorem step_again {q : Nat} :
    l.code.Step effects (l.source.length + (l.test.length + 1 + l.round.length), s) (q, t) ↔
      q = l.source.length ∧ t = s := by
  have hjump : l.code[l.source.length + (l.test.length + 1 + l.round.length)]? =
      some (.jumpBack (l.test.length + 1 + l.round.length)) := by
    rw [code, List.getElem?_append_right (Nat.le_add_right _ _), Nat.add_sub_cancel_left,
      ← length_guarded l.test l.round (l.round.length + 1),
      List.getElem?_append_right (Nat.le_refl _), Nat.sub_self]
    rfl
  simp only [Step, hjump, Option.some.injEq, exists_eq_left']
  constructor
  · rintro ⟨rfl, hmove⟩
    exact ⟨by omega, rfl⟩
  · rintro ⟨rfl, rfl⟩
    exact ⟨rfl, by omega⟩

theorem flow_test (hp : p ≤ l.test.length) :
    l.code.Reaches effects s (l.source.length + p) t ↔
      ∃ u, l.Comes effects s u ∧ l.test.Reaches effects u p t := by
  rw [l.reaches_rounds]
  refine exists_congr fun u => and_congr_right fun _ => ?_
  rw [and_iff_right hp]
  apply or_iff_left
  rintro (⟨_, q, -, -, hq, -⟩ | ⟨_, -, ⟨hq, -⟩ | ⟨hq, -⟩⟩) <;> omega

theorem flow_round (hp : p ≤ l.round.length) :
    l.code.Reaches effects s (l.source.length + (l.test.length + 1 + p)) t ↔
      ∃ u v, l.Comes effects s u ∧ l.test.Decides effects u false v ∧
        l.round.Reaches effects v p t := by
  rw [l.reaches_rounds]
  constructor
  · rintro ⟨u, hcomes, ⟨hle, -⟩ | ⟨v, q, hdecides, -, hq, hrun⟩ | ⟨_, -, ⟨hq, -⟩ | ⟨hq, -⟩⟩⟩
    · omega
    · obtain rfl : p = q := by omega
      exact ⟨u, v, hcomes, hdecides, hrun⟩
    · omega
    · omega
  · rintro ⟨u, v, hcomes, hdecides, hrun⟩
    exact ⟨u, hcomes, .inr (.inl ⟨v, p, hdecides, hp, rfl, hrun⟩)⟩

theorem flow_exit :
    l.code.Reaches effects s (l.source.length + (l.test.length + 1 + (l.round.length + 1))) t ↔
      ∃ u, l.Comes effects s u ∧ l.test.Decides effects u true t := by
  rw [l.reaches_rounds]
  constructor
  · rintro ⟨u, hcomes, ⟨hle, -⟩ | ⟨_, q, -, hle, hq, -⟩ | ⟨_, hdecides, ⟨-, rfl⟩ | ⟨hq, -⟩⟩⟩
    · omega
    · omega
    · exact ⟨u, hcomes, hdecides⟩
    · omega
  · rintro ⟨u, hcomes, hdecides⟩
    exact ⟨u, hcomes, .inr (.inr ⟨t, hdecides, .inl ⟨rfl, rfl⟩⟩)⟩

theorem flow_leaves : l.code.Passes effects s t ↔
    ∃ u v, l.Comes effects s u ∧ l.test.Decides effects u true v ∧ effects .popStack v t := by
  rw [Passes, length_code, l.reaches_rounds]
  constructor
  · rintro ⟨u, hcomes, ⟨hle, -⟩ | ⟨_, q, -, hle, hq, -⟩ | ⟨v, hdecides, ⟨hq, -⟩ | ⟨-, heffect⟩⟩⟩
    · omega
    · omega
    · omega
    · exact ⟨u, v, hcomes, hdecides, heffect⟩
  · rintro ⟨u, v, hcomes, hdecides, heffect⟩
    exact ⟨u, hcomes, .inr (.inr ⟨v, hdecides, .inr ⟨rfl, heffect⟩⟩)⟩

theorem le_length_of_reaches (hrun : l.code.Reaches effects s p t) : p ≤ l.code.length := by
  rw [length_code]
  rcases Nat.lt_or_ge p l.source.length with hlt | hge
  · omega
  · obtain ⟨p, rfl⟩ := Nat.exists_eq_add_of_le hge
    obtain ⟨u, -, ⟨hle, -⟩ | ⟨_, q, -, hle, hq, -⟩ | ⟨_, -, ⟨hq, -⟩ | ⟨hq, -⟩⟩⟩ :=
      l.reaches_rounds.mp hrun <;> omega

theorem flow (l : Repetition) (effects : Effects ρ) : l.Flow effects where
  source _ _ _ hp := reaches_append_left l.source_closed l.forward_rounds hp
  test _ _ _ hp := l.flow_test hp
  round _ _ _ hp := l.flow_round hp
  again _ _ _ := l.step_again
  exit _ _ := l.flow_exit
  leaves _ _ := l.flow_leaves
  inside _ _ _ hrun := l.le_length_of_reaches hrun
  anywhere := (l.source_closed.forward.append l.forward_rounds).runsAnywhere

end Repetition

end Code

namespace Statement

/-- The code of a body that has a scope of its own. -/
def BlockCode (slots : Slots) (body : List Statement) (code : Code) : Prop :=
  ∃ own inner, compileBody slots.enter body = .ok (own, inner) ∧ code = own ++ inner.truncation

/-- The code of what is run last, which is never empty. -/
def LastCode (slots : Slots) (code : Code) : Option (List Statement) → Prop
  | none => code = [.noop]
  | some body => BlockCode slots body code

variable {slots : Slots} {code : Code}

theorem BlockCode.closed {body : List Statement} (h : BlockCode slots body code) :
    code.Closed := by
  obtain ⟨own, inner, hbody, rfl⟩ := h
  exact ((shifts_compileBody body _ hbody).append (Code.shifts_truncation inner 0)).closed

theorem LastCode.closed {last : Option (List Statement)} (h : LastCode slots code last) :
    code.Closed := by
  cases last with
  | none =>
      obtain rfl : code = [.noop] := h
      exact Code.closed_cons (by decide) Code.closed_nil
  | some body => exact BlockCode.closed h

theorem compileBranches_last {last : Option (List Statement)} {arms : Code}
    (h : compileBranches slots (Choice.ordered [] none last) = .ok (arms, code)) :
    arms = [] ∧ LastCode slots code last := by
  cases last with
  | none =>
      obtain ⟨rfl, rfl⟩ := Prod.mk.inj (Except.ok.inj h)
      exact ⟨rfl, rfl⟩
  | some body =>
      change compileBranches slots [(.lastly, body)] = _ at h
      simp only [compileBranches, bind_eq_ok, pure_eq_ok, Prod.mk.injEq] at h
      obtain ⟨⟨own, inner⟩, hbody, rfl, rfl⟩ := h
      exact ⟨rfl, own, inner, hbody, rfl⟩

end Statement

namespace Code

open Statement (BlockCode LastCode)

/-- The parts of a choice are the code of its branches. -/
structure Branching.Compiles (b : Branching) (slots : Slots)
    (conditions : List (Expr × List Statement)) (otherwise last : Option (List Statement)) :
    Prop where
  arms : List.Forall₂ (fun condition arm =>
    condition.1.compile slots = .ok arm.test ∧ BlockCode slots condition.2 arm.body)
    conditions b.arms
  otherwise : Option.Rel (BlockCode slots) otherwise b.otherwise
  last : LastCode slots b.last last

/-- The parts of a loop are the code of its array, the test whether the array is empty, and the code
of its body between what makes the item a variable and what drops the variables of the round. -/
structure Repetition.Compiles (l : Repetition) (slots : Slots) (source : Expr) (item : String)
    (body : List Statement) : Prop where
  source : source.compile slots = .ok l.source
  test : l.test = [.arrayLength, zero, .equal]
  round : ∃ code inner, Statement.compileBody (slots.enter.add item ()) body = .ok (code, inner) ∧
    l.round = .popArray :: .stackToHeap :: code ++ [.truncateHeap inner.declared]

variable {slots : Slots}

theorem exists_branching {conditions : List (Expr × List Statement)}
    {otherwise last : Option (List Statement)} {arms final : Code}
    (h : Statement.compileBranches slots (Choice.ordered conditions otherwise last) =
      .ok (arms, final)) :
    ∃ b : Branching, b.Compiles slots conditions otherwise last ∧ b.selection = arms ∧
      b.last = final := by
  induction conditions generalizing arms with
  | nil =>
      cases otherwise with
      | none =>
          obtain ⟨rfl, hlast⟩ := Statement.compileBranches_last h
          exact ⟨⟨[], none, final, nofun, hlast.closed⟩, ⟨.nil, .none, hlast⟩, rfl, rfl⟩
      | some body =>
          change Statement.compileBranches slots
            ((.otherwise, body) :: Choice.ordered [] none last) = _ at h
          simp only [Statement.compileBranches, Guard.compile, bind_eq_ok, pure_eq_ok,
            Prod.mk.injEq] at h
          obtain ⟨⟨own, inner⟩, hbody, _, htest, ⟨others, _⟩, hrest, rfl, rfl⟩ := h
          obtain rfl := Except.ok.inj htest
          obtain ⟨rfl, hlast⟩ := Statement.compileBranches_last hrest
          have hblock : BlockCode slots body (own ++ inner.truncation) := ⟨own, inner, hbody, rfl⟩
          refine ⟨⟨[], some (own ++ inner.truncation), _, ?_, hlast.closed⟩,
            ⟨.nil, .some hblock, hlast⟩, rfl, rfl⟩
          rintro _ ⟨⟩
          exact hblock.closed
  | cons condition conditions ih =>
      obtain ⟨condition, body⟩ := condition
      change Statement.compileBranches slots
        ((.when condition, body) :: Choice.ordered conditions otherwise last) = _ at h
      simp only [Statement.compileBranches, Guard.compile, bind_eq_ok, pure_eq_ok,
        Prod.mk.injEq] at h
      obtain ⟨⟨own, inner⟩, hbody, _, ⟨test, htest, rfl⟩, ⟨others, _⟩, hrest, rfl, rfl⟩ := h
      obtain ⟨b, hcompiles, rfl, rfl⟩ := ih hrest
      have hblock : BlockCode slots body (own ++ inner.truncation) := ⟨own, inner, hbody, rfl⟩
      let arm : Arm := ⟨test, own ++ inner.truncation,
        (Expr.shifts_compile slots condition htest).closed, hblock.closed⟩
      refine ⟨{ b with arms := arm :: b.arms }, ⟨.cons ⟨htest, hblock⟩ hcompiles.arms,
        hcompiles.otherwise, hcompiles.last⟩, ?_, rfl⟩
      change arm.before b.selection = _
      simp [Arm.before, arm]

end Code

namespace Statement

open Code (Branching Repetition)

theorem exists_branching_of_compile {branches : List Branch} {slots after : Slots} {code : Code}
    (h : (choice branches).compile slots = .ok (code, after)) :
    ∃ conditions otherwise last, conditions ≠ [] ∧
      branches = Choice.ordered conditions otherwise last ∧
      ∃ b : Branching, b.Compiles slots conditions otherwise last ∧ b.code = code := by
  simp only [compile, bind_eq_ok, pure_eq_ok, Prod.mk.injEq] at h
  obtain ⟨shape, hshape, ⟨arms, final⟩, hbranches, rfl, -⟩ := h
  obtain ⟨conditions, otherwise, last, hconditions, rfl⟩ :=
    Choice.exists_shape_iff.mp ⟨shape, hshape⟩
  obtain ⟨b, hcompiles, rfl, rfl⟩ := Code.exists_branching hbranches
  exact ⟨conditions, otherwise, last, hconditions, rfl, b, hcompiles, rfl⟩

theorem exists_repetition_of_compile {source : Expr} {item : String} {body : List Statement}
    {slots after : Slots} {code : Code}
    (h : (forEach source item body).compile slots = .ok (code, after)) :
    ∃ l : Repetition, l.Compiles slots source item body ∧ l.code = code := by
  simp only [compile, bind_eq_ok, pure_eq_ok, Prod.mk.injEq] at h
  obtain ⟨array, harray, ⟨own, inner⟩, hbody, rfl, -⟩ := h
  have hitem : Code.Shifts 1 1 [.popArray, .stackToHeap] := Code.shifts_straight rfl
  have hdrop : Code.Shifts 1 1 [.truncateHeap inner.declared] := Code.shifts_straight rfl
  have hround := hitem.append (((shifts_compileBody body _ hbody).lift 1).append hdrop)
  have htest : Code.Shifts 1 2 [.arrayLength, Code.zero, .equal] := Code.shifts_straight rfl
  refine ⟨⟨array, [.arrayLength, Code.zero, .equal],
    .popArray :: .stackToHeap :: own ++ [.truncateHeap inner.declared],
    (Expr.shifts_compile slots source harray).closed, htest.closed, hround.closed⟩,
    ⟨harray, rfl, own, inner, hbody, rfl⟩, ?_⟩
  simp [Repetition.code, Code.loop, Nat.add_comm 4]

/-- Control flow of choices and loops, whatever they hold and whatever the instructions of which
they are made do. The first true condition decides which body is run, after all conditions before it
were tested, and what is run last follows. A loop tests before each round and is left from the
test. -/
theorem flow_of_compile {slots after : Slots} {code : Code} :
    (∀ branches, (choice branches).compile slots = .ok (code, after) →
      ∃ conditions otherwise last, conditions ≠ [] ∧
        branches = Choice.ordered conditions otherwise last ∧
        ∃ b : Branching, b.Compiles slots conditions otherwise last ∧ b.code = code ∧
          ∀ (ρ : Type) (effects : Effects ρ), b.Flow effects) ∧
    ∀ source item body, (forEach source item body).compile slots = .ok (code, after) →
      ∃ l : Repetition, l.Compiles slots source item body ∧ l.code = code ∧
        ∀ (ρ : Type) (effects : Effects ρ), l.Flow effects := by
  constructor
  · intro branches h
    obtain ⟨conditions, otherwise, last, hconditions, hbranches, b, hcompiles, hcode⟩ :=
      exists_branching_of_compile h
    exact ⟨conditions, otherwise, last, hconditions, hbranches, b, hcompiles, hcode,
      fun _ effects => b.flow effects⟩
  · intro source item body h
    obtain ⟨l, hcompiles, hcode⟩ := exists_repetition_of_compile h
    exact ⟨l, hcompiles, hcode, fun _ effects => l.flow effects⟩

/-- What is done with an order: a paid one is sent item by item, one that can be paid is charged. -/
def settle : Statement :=
  .choice
    [(.when (.keyExists "paid" (.saved "order")),
        [.save "items" (.keyOfObject "orders" [.saved "order", .string "items"]),
          .forEach (.saved "items") "item"
            [.pushAtKey "parcels" [.saved "order"] [.saved "item"]]]),
      (.when (.comparison .lessEqual (.keyOfObject "prices" [.saved "order"]) (.saved "limit")),
        [.setKey "paid" [.saved "order"] (.bool true), .ret (some (.saved "order"))]),
      (.otherwise, []),
      (.lastly, [.deleteKey "pending" [.saved "order"]])]

def settleAll : Statement :=
  .forEach (.keysOfObject "orders") "order" [settle]

theorem flow_of_compile_settleAll :
    (∃ (b : Branching) (after : Slots),
      settle.compile (.add (.add Scope.empty "limit" ()) "order" ()) = .ok (b.code, after) ∧
        b.arms ≠ [] ∧ ∀ (ρ : Type) (effects : Effects ρ), b.Flow effects) ∧
    ∃ (l : Repetition) (after : Slots),
      settleAll.compile (.add Scope.empty "limit" ()) = .ok (l.code, after) ∧
        ∀ (ρ : Type) (effects : Effects ρ), l.Flow effects := by
  constructor
  · obtain ⟨⟨code, after⟩, hcode⟩ : ∃ result,
        settle.compile (.add (.add Scope.empty "limit" ()) "order" ()) = .ok result := ⟨_, rfl⟩
    obtain ⟨conditions, _, _, hconditions, -, b, hcompiles, rfl, hflow⟩ :=
      flow_of_compile.1 _ hcode
    refine ⟨b, after, hcode, fun harms => hconditions ?_, hflow⟩
    rw [← List.length_eq_zero_iff, hcompiles.arms.length_eq, harms]
    rfl
  · obtain ⟨⟨code, after⟩, hcode⟩ : ∃ result,
        settleAll.compile (.add Scope.empty "limit" ()) = .ok result := ⟨_, rfl⟩
    obtain ⟨l, -, rfl, hflow⟩ := flow_of_compile.2 _ _ _ hcode
    exact ⟨l, after, hcode, hflow⟩

end Statement

end StoredProcedure
