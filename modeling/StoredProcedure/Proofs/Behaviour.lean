import Mathlib.Logic.Relation
import StoredProcedure.Proofs.CodeRun
import StoredProcedure.Proofs.StackFlow

/-!
Running parts of code on any machine that moves its cursor as the instructions say. Of the state of
such a machine only the operands are known. The rest may be anything, also a record of all that was
run, so what is said of the states at a position is said of every single run. What the instructions
do that never decide where to go on is left open.

A run of appended parts is made of runs of the parts. So a skip over a part, a choice between two
parts and a loop are described by the runs of the parts alone, whatever these hold.
-/

namespace StoredProcedure

/-- The operands of a machine, the top first, and all else. -/
structure State (ρ : Type) where
  stack : List Datum
  rest : ρ

/-- What instructions do to the state of a machine. -/
abbrev Effects (ρ : Type) := Instruction → State ρ → State ρ → Prop

variable {ρ : Type} {effects : Effects ρ}

namespace State

def push (s : State ρ) (value : Datum) : State ρ :=
  { s with stack := value :: s.stack }

/-- A truth value is taken off the stack. -/
def Pops (s : State ρ) (value : Bool) (t : State ρ) : Prop :=
  s = t.push (.bool value)

/-- There is a value on top, and this says whether it is null. -/
def TopIsNull (s : State ρ) (value : Bool) : Prop :=
  ∃ top, s.stack.head? = some top ∧ (value = true ↔ top = .null)

theorem TopIsNull.unique {s : State ρ} {value other : Bool} (h : s.TopIsNull value)
    (hother : s.TopIsNull other) : value = other := by
  obtain ⟨top, htop, hvalue⟩ := h
  obtain ⟨top, hsame, hother⟩ := hother
  obtain rfl := Option.some.inj (htop.symm.trans hsame)
  exact Bool.eq_iff_iff.mpr (hvalue.trans hother.symm)

theorem pops_push {s t : State ρ} {value other : Bool} :
    (s.push (.bool value)).Pops other t ↔ value = other ∧ t = s := by
  constructor
  · intro h
    rcases s with ⟨stack, rest⟩
    rcases t with ⟨others, more⟩
    simp only [Pops, push, State.mk.injEq, List.cons.injEq] at h
    obtain ⟨⟨hvalue, rfl⟩, rfl⟩ := h
    exact ⟨Json.bool.inj (congrArg Datum.json hvalue), rfl⟩
  · rintro ⟨rfl, rfl⟩
    rfl

end State

namespace Instruction

/-- An instruction is run: by how much the cursor moves, and the state after it. A return or an
error ends the run. -/
def Acts (effects : Effects ρ) (s : State ρ) (move : Int) (t : State ρ) : Instruction → Prop
  | .skipIf count => ∃ value, s.Pops value t ∧ move = if value then (count : Int) + 1 else 1
  | .jump offset true => t = s ∧ move = offset + 1
  | .jump offset false => t = s ∧ move = -offset
  | .negate => ∃ value u, s.Pops value u ∧ t = u.push (.bool (!value)) ∧ move = 1
  | .isNull => ∃ value, s.TopIsNull value ∧ t = s.push (.bool value) ∧ move = 1
  | .noop => t = s ∧ move = 1
  | .returnTop | .returnVoid | .raise _ => False
  | instruction => effects instruction s t ∧ move = 1

/-- Whether an instruction does nothing but what is left open. -/
def isEffect : Instruction → Bool
  | .skipIf _ | .jump _ _ | .negate | .isNull | .noop | .returnTop | .returnVoid | .raise _ => false
  | _ => true

theorem acts_iff_of_isEffect {s t : State ρ} {move : Int} {instruction : Instruction}
    (h : instruction.isEffect = true) :
    instruction.Acts effects s move t ↔ effects instruction s t ∧ move = 1 := by
  cases instruction with
  | skipIf | jump | negate | isNull | noop | returnTop | returnVoid | raise => cases h
  | _ => exact Iff.rfl

theorem moves_of_isEffect {instruction : Instruction} (h : instruction.isEffect = true) :
    instruction.moves = [1] := by
  cases instruction with
  | skipIf | jump | negate | isNull | noop | returnTop | returnVoid | raise => cases h
  | _ => rfl

theorem ahead_of_isEffect {instruction : Instruction} (h : instruction.isEffect = true) :
    ∀ move ∈ instruction.moves, 1 ≤ move := by
  rw [moves_of_isEffect h]
  decide

theorem ahead_skipIf (count : Nat) : ∀ move ∈ (skipIf count).moves, 1 ≤ move := by
  intro move hmove
  rcases List.mem_pair.mp hmove with rfl | rfl <;> omega

theorem ahead_jumpForward (offset : Nat) : ∀ move ∈ (jumpForward offset).moves, 1 ≤ move := by
  intro move hmove
  obtain rfl := List.mem_singleton.mp hmove
  omega

theorem mem_moves_of_acts {s t : State ρ} {move : Int} {instruction : Instruction}
    (h : instruction.Acts effects s move t) : move ∈ instruction.moves := by
  cases instruction with
  | skipIf count =>
      obtain ⟨value, -, rfl⟩ := h
      cases value <;> simp [moves]
  | jump offset forward =>
      cases forward with
      | true => exact List.mem_singleton.mpr h.2
      | false => exact List.mem_singleton.mpr h.2
  | negate =>
      obtain ⟨-, -, -, -, rfl⟩ := h
      exact List.mem_singleton.mpr rfl
  | isNull =>
      obtain ⟨-, -, -, rfl⟩ := h
      exact List.mem_singleton.mpr rfl
  | returnTop | returnVoid | raise message => exact absurd h id
  | _ => exact List.mem_singleton.mpr h.2

end Instruction

namespace Code

/-- A step of a machine from a position in a code. -/
def Step (effects : Effects ρ) (code : Code) (before after : Nat × State ρ) : Prop :=
  ∃ instruction, code[before.1]? = some instruction ∧
    instruction.Acts effects before.2 ((after.1 : Int) - before.1) after.2

/-- The machine comes from one position and state to another. -/
def Runs (effects : Effects ρ) (code : Code) : Nat × State ρ → Nat × State ρ → Prop :=
  Relation.ReflTransGen (code.Step effects)

/-- From the start of the code the machine comes to a position and a state. -/
def Reaches (effects : Effects ρ) (code : Code) (s : State ρ) (pos : Nat) (t : State ρ) : Prop :=
  code.Runs effects (0, s) (pos, t)

/-- The machine runs in a part of a program, until it leaves the part or before. -/
def RunsInside (effects : Effects ρ) (program : Code) (start length : Nat) :
    Nat × State ρ → Nat × State ρ → Prop :=
  Relation.ReflTransGen fun c d =>
    start ≤ c.1 ∧ c.1 < start + length ∧ program.Step effects c d

/-- Wherever the code stands in a program, it is run in the same way. -/
def RunsAnywhere (effects : Effects ρ) (code : Code) : Prop :=
  ∀ (program : Code) (start : Nat), program.Contains start code →
    ∀ (s : State ρ) (p : Nat) (t : State ρ),
      program.RunsInside effects start code.length (start, s) (start + p, t) ↔
        code.Reaches effects s p t

/-- The code is run from its start to its end. -/
def Passes (effects : Effects ρ) (code : Code) (s t : State ρ) : Prop :=
  code.Reaches effects s code.length t

/-- No move leads to before the start. -/
def Forward (code : Code) : Prop :=
  ∀ (pos : Nat) instruction, code[pos]? = some instruction →
    ∀ move ∈ instruction.moves, 0 ≤ (pos : Int) + move

/-- Every move stays inside the code or leads to its end. -/
def Closed (code : Code) : Prop :=
  ∀ (pos : Nat) instruction, code[pos]? = some instruction →
    ∀ move ∈ instruction.moves, ∃ target : Nat, (target : Int) = pos + move ∧ target ≤ code.length

variable {first more code : Code} {s t u : State ρ} {p q : Nat}

theorem Closed.forward (h : code.Closed) : code.Forward := by
  intro pos instruction hpos move hmove
  obtain ⟨target, htarget, -⟩ := h pos instruction hpos move hmove
  omega

theorem Shifts.closed {a b : Nat} (h : code.Shifts a b) : code.Closed := by
  obtain ⟨levels, -, -, hflow⟩ := (h 0).exists_levels
  intro pos instruction hpos move hmove
  obtain ⟨_, -, hmoves⟩ := hflow pos instruction hpos
  obtain ⟨target, htarget, hinside, -⟩ := hmoves move hmove
  exact ⟨target, htarget, hinside⟩

theorem Forward.append (hfirst : first.Forward) (hmore : more.Forward) :
    (first ++ more).Forward := by
  intro pos instruction hpos move hmove
  rcases Nat.lt_or_ge pos first.length with hlt | hge
  · rw [List.getElem?_append_left hlt] at hpos
    exact hfirst pos instruction hpos move hmove
  · rw [List.getElem?_append_right hge] at hpos
    have := hmore _ instruction hpos move hmove
    omega

theorem Forward.again (hcode : code.Forward) (hmore : more.Forward) :
    Forward (code ++ .jumpBack code.length :: more) := by
  intro pos instruction hpos move hmove
  rcases Nat.lt_or_ge pos code.length with hlt | hge
  · rw [List.getElem?_append_left hlt] at hpos
    exact hcode pos instruction hpos move hmove
  · obtain ⟨rest, rfl⟩ := Nat.exists_eq_add_of_le hge
    rw [List.getElem?_append_right hge, Nat.add_sub_cancel_left] at hpos
    cases rest with
    | zero =>
        obtain rfl := Option.some.inj hpos
        obtain rfl := List.mem_singleton.mp hmove
        omega
    | succ rest =>
        have := hmore rest instruction hpos move hmove
        omega

theorem Closed.append (hfirst : first.Closed) (hmore : more.Closed) : (first ++ more).Closed := by
  intro pos instruction hpos move hmove
  rw [List.length_append]
  rcases Nat.lt_or_ge pos first.length with hlt | hge
  · rw [List.getElem?_append_left hlt] at hpos
    obtain ⟨target, htarget, hle⟩ := hfirst pos instruction hpos move hmove
    exact ⟨target, htarget, by omega⟩
  · rw [List.getElem?_append_right hge] at hpos
    obtain ⟨target, htarget, hle⟩ := hmore _ instruction hpos move hmove
    exact ⟨first.length + target, by omega, by omega⟩

theorem closed_cons {instruction : Instruction}
    (hinside : ∀ move ∈ instruction.moves, 0 ≤ move ∧ move ≤ more.length + 1)
    (hmore : more.Closed) : Closed (instruction :: more) := by
  intro pos other hpos move hmove
  rw [List.length_cons]
  cases pos with
  | zero =>
      obtain rfl := Option.some.inj hpos
      obtain ⟨hge, hle⟩ := hinside move hmove
      exact ⟨move.toNat, by omega, by omega⟩
  | succ pos =>
      obtain ⟨target, htarget, hle⟩ := hmore pos other hpos move hmove
      exact ⟨target + 1, by omega, by omega⟩

theorem step_append_left (hp : p < first.length) {c : Nat × State ρ} :
    (first ++ more).Step effects (p, s) c ↔ first.Step effects (p, s) c := by
  rw [Step, Step, List.getElem?_append_left hp]

theorem step_shift {program : Code} {start : Nat} (hcode : code.Forward)
    (hget : program[start + p]? = code[p]?) :
    program.Step effects (start + p, s) (q, t) ↔
      ∃ r, q = start + r ∧ code.Step effects (p, s) (r, t) := by
  constructor
  · rintro ⟨instruction, hinstruction, hacts⟩
    have hinside : code[p]? = some instruction := hget.symm.trans hinstruction
    have hmove := hcode p instruction hinside _ (Instruction.mem_moves_of_acts hacts)
    refine ⟨q - start, by push_cast at hmove; omega, instruction, hinside, ?_⟩
    have hsame : ((q : Int) - (start + p : Nat)) = ((q - start : Nat) : Int) - p := by
      push_cast at hmove
      omega
    rwa [← hsame]
  · rintro ⟨r, rfl, instruction, hinstruction, hacts⟩
    refine ⟨instruction, hget.trans hinstruction, ?_⟩
    have hsame : ((start + r : Nat) : Int) - (start + p : Nat) = (r : Int) - p := by
      omega
    rwa [hsame]

theorem step_append_right (hmore : more.Forward) :
    (first ++ more).Step effects (first.length + p, s) (q, t) ↔
      ∃ r, q = first.length + r ∧ more.Step effects (p, s) (r, t) := by
  apply step_shift hmore
  rw [List.getElem?_append_right (Nat.le_add_right _ _), Nat.add_sub_cancel_left]

theorem Forward.runsAnywhere (hcode : code.Forward) : code.RunsAnywhere effects := by
  intro program start hpart s p t
  constructor
  · intro h
    generalize hc : (start + p, t) = c at h
    induction h generalizing p t with
    | refl =>
        obtain ⟨hp, rfl⟩ := Prod.mk.inj hc
        obtain rfl : p = 0 := by omega
        exact .refl
    | @tail c _ _ hstep ih =>
        subst hc
        obtain ⟨r, u⟩ := c
        obtain ⟨hge, hlt, hstep⟩ := hstep
        obtain ⟨r, rfl⟩ := Nat.exists_eq_add_of_le hge
        have hget := hpart r (Nat.lt_of_add_lt_add_left hlt)
        obtain ⟨q, hq, hinside⟩ := (step_shift hcode hget).mp hstep
        obtain rfl : p = q := by omega
        exact (ih _ _ rfl).tail hinside
  · intro h
    refine h.lift (fun c => (start + c.1, c.2)) fun c d hstep => ?_
    obtain ⟨instruction, hinstruction, -⟩ := id hstep
    have hlt := (List.getElem?_eq_some_iff.mp hinstruction).1
    exact ⟨Nat.le_add_right _ _, Nat.add_lt_add_left hlt start,
      (step_shift hcode (hpart c.1 hlt)).mpr ⟨d.1, rfl, hstep⟩⟩

theorem runs_of_length_le (hp : code.length ≤ p) {c : Nat × State ρ} :
    code.Runs effects (p, s) c ↔ c = (p, s) := by
  constructor
  · intro h
    rcases h.cases_head with heq | ⟨_, ⟨instruction, hinstruction, -⟩, -⟩
    · exact heq.symm
    · rw [List.getElem?_eq_none hp] at hinstruction
      cases hinstruction
  · rintro rfl
    exact .refl

theorem Runs.append_left {c d : Nat × State ρ} (h : first.Runs effects c d) (more : Code) :
    (first ++ more).Runs effects c d := by
  refine h.lift id ?_
  rintro ⟨p, s⟩ d ⟨instruction, hinstruction, hacts⟩
  have hp := (List.getElem?_eq_some_iff.mp hinstruction).1
  exact (step_append_left hp).mpr ⟨instruction, hinstruction, hacts⟩

theorem Runs.append_right (hmore : more.Forward) (h : more.Runs effects (p, s) (q, t))
    (first : Code) :
    (first ++ more).Runs effects (first.length + p, s) (first.length + q, t) := by
  refine h.lift (fun c => (first.length + c.1, c.2)) fun c d hstep => ?_
  exact (step_append_right hmore).mpr ⟨d.1, rfl, hstep⟩

/-- A run of two parts stays in the first one, or leaves it to somewhere in the second. -/
theorem runs_append (hmore : more.Forward) :
    (first ++ more).Runs effects (p, s) (q, t) ↔
      (q < first.length ∧ first.Runs effects (p, s) (q, t)) ∨
        ∃ r u q', first.Runs effects (p, s) (first.length + r, u) ∧ q = first.length + q' ∧
          more.Runs effects (r, u) (q', t) := by
  constructor
  · intro h
    -- The last step decides: it is made in the first part, which it may leave, or in the second,
    -- from where no move leads back.
    generalize hc : (q, t) = c at h
    induction h generalizing q t with
    | refl =>
        obtain ⟨rfl, rfl⟩ := Prod.mk.inj hc
        rcases Nat.lt_or_ge q first.length with hlt | hge
        · exact .inl ⟨hlt, .refl⟩
        · refine .inr ⟨q - first.length, t, q - first.length, ?_, by omega, .refl⟩
          rw [Nat.add_sub_cancel' hge]
          exact .refl
    | @tail c _ _ hstep ih =>
        subst hc
        rcases ih rfl with ⟨hlt, hrun⟩ | ⟨r, u, q', hrun, hq, hrest⟩
        · have hinside := hrun.tail ((step_append_left hlt).mp hstep)
          rcases Nat.lt_or_ge q first.length with hlt | hge
          · exact .inl ⟨hlt, hinside⟩
          · refine .inr ⟨q - first.length, t, q - first.length, ?_, by omega, .refl⟩
            rwa [Nat.add_sub_cancel' hge]
        · obtain ⟨pos, state⟩ := c
          subst hq
          obtain ⟨r', rfl, hmoreStep⟩ := (step_append_right hmore).mp hstep
          exact .inr ⟨r, u, r', hrun, rfl, hrest.tail hmoreStep⟩
  · rintro (⟨-, hrun⟩ | ⟨r, u, q', hrun, rfl, hrest⟩)
    · exact hrun.append_left more
    · exact (hrun.append_left more).trans (hrest.append_right hmore first)

theorem runs_append_right (hmore : more.Forward) :
    (first ++ more).Runs effects (first.length + p, s) (q, t) ↔
      ∃ q', q = first.length + q' ∧ more.Runs effects (p, s) (q', t) := by
  rw [runs_append hmore]
  simp only [runs_of_length_le (Nat.le_add_right first.length p), Prod.mk.injEq,
    Nat.add_left_cancel_iff]
  constructor
  · rintro (⟨hlt, rfl, -⟩ | ⟨_, _, q', ⟨rfl, rfl⟩, rfl, hrest⟩)
    · omega
    · exact ⟨q', rfl, hrest⟩
  · rintro ⟨q', rfl, hrest⟩
    exact .inr ⟨p, s, q', ⟨rfl, rfl⟩, rfl, hrest⟩

theorem Closed.le_of_runs (h : code.Closed) (hp : p ≤ code.length)
    (hrun : code.Runs effects (p, s) (q, t)) : q ≤ code.length := by
  generalize hc : (q, t) = c at hrun
  induction hrun generalizing q t with
  | refl =>
      obtain ⟨rfl, -⟩ := Prod.mk.inj hc
      exact hp
  | tail _ hstep _ =>
      obtain ⟨instruction, hinstruction, hacts⟩ := hstep
      obtain ⟨target, htarget, hinside⟩ :=
        h _ instruction hinstruction _ (Instruction.mem_moves_of_acts hacts)
      subst hc
      omega

theorem Closed.le_of_reaches (h : code.Closed) (hreaches : code.Reaches effects s p t) :
    p ≤ code.length :=
  h.le_of_runs (Nat.zero_le _) hreaches

theorem reaches_append_exits (hmore : more.Forward) :
    (first ++ more).Reaches effects s p t ↔
      (p < first.length ∧ first.Reaches effects s p t) ∨
        ∃ r u q, first.Reaches effects s (first.length + r) u ∧ p = first.length + q ∧
          more.Runs effects (r, u) (q, t) :=
  runs_append hmore

theorem reaches_append (hfirst : first.Closed) (hmore : more.Forward) :
    (first ++ more).Reaches effects s p t ↔
      (p < first.length ∧ first.Reaches effects s p t) ∨
        ∃ u q, first.Passes effects s u ∧ p = first.length + q ∧ more.Reaches effects u q t := by
  rw [reaches_append_exits hmore]
  refine or_congr Iff.rfl ⟨?_, ?_⟩
  · rintro ⟨r, u, q, hrun, rfl, hrest⟩
    have hle := hfirst.le_of_reaches hrun
    obtain rfl : r = 0 := by omega
    exact ⟨u, q, hrun, rfl, hrest⟩
  · rintro ⟨u, q, hpasses, rfl, hrest⟩
    exact ⟨0, u, q, hpasses, rfl, hrest⟩

theorem reaches_append_left (hfirst : first.Closed) (hmore : more.Forward)
    (hp : p < first.length) :
    (first ++ more).Reaches effects s p t ↔ first.Reaches effects s p t := by
  rw [reaches_append hfirst hmore, and_iff_right hp]
  apply or_iff_left
  rintro ⟨_, q, -, rfl, -⟩
  omega

theorem reaches_append_right (hfirst : first.Closed) (hmore : more.Forward) :
    (first ++ more).Reaches effects s (first.length + p) t ↔
      ∃ u, first.Passes effects s u ∧ more.Reaches effects u p t := by
  rw [reaches_append hfirst hmore, or_iff_right (fun h => absurd h.1 (by omega))]
  constructor
  · rintro ⟨u, q, hpasses, hq, hrest⟩
    obtain rfl : p = q := by omega
    exact ⟨u, hpasses, hrest⟩
  · rintro ⟨u, hpasses, hrest⟩
    exact ⟨u, p, hpasses, rfl, hrest⟩

theorem passes_append (hfirst : first.Closed) (hmore : more.Forward) :
    (first ++ more).Passes effects s t ↔
      ∃ u, first.Passes effects s u ∧ more.Passes effects u t := by
  rw [Passes, List.length_append, reaches_append_right hfirst hmore]
  rfl

theorem forward_nil : Forward [] :=
  nofun

theorem closed_nil : Closed [] :=
  nofun

theorem reaches_nil : Reaches effects [] s p t ↔ p = 0 ∧ t = s := by
  rw [Reaches, runs_of_length_le (Nat.zero_le 0), Prod.mk.injEq]

theorem runs_single {instruction : Instruction}
    (hahead : ∀ move ∈ instruction.moves, 1 ≤ move) :
    Runs effects [instruction] (0, s) (p, t) ↔
      (p = 0 ∧ t = s) ∨ ∃ skip : Nat, p = skip + 1 ∧ instruction.Acts effects s (skip + 1) t := by
  constructor
  · intro h
    rcases h.cases_head with heq | ⟨⟨q, u⟩, ⟨other, hother, hacts⟩, hrest⟩
    · obtain ⟨rfl, rfl⟩ := Prod.mk.inj heq
      exact .inl ⟨rfl, rfl⟩
    · obtain rfl := Option.some.inj hother
      have hmove := hahead _ (Instruction.mem_moves_of_acts hacts)
      have hq : 1 ≤ q := by
        simp only [Int.natCast_zero, Int.sub_zero] at hmove
        omega
      rw [← Runs, runs_of_length_le hq] at hrest
      obtain ⟨rfl, rfl⟩ := Prod.mk.inj hrest
      refine .inr ⟨p - 1, by omega, ?_⟩
      have hsame : (p : Int) - (0 : Nat) = ((p - 1 : Nat) : Int) + 1 := by omega
      rwa [← hsame]
  · rintro (⟨rfl, rfl⟩ | ⟨skip, rfl, hacts⟩)
    · exact .refl
    · refine .single ⟨instruction, rfl, ?_⟩
      have hsame : ((skip + 1 : Nat) : Int) - (0 : Nat) = (skip : Int) + 1 := by omega
      rwa [hsame]

theorem reaches_cons {instruction : Instruction} (hmore : more.Forward)
    (hahead : ∀ move ∈ instruction.moves, 1 ≤ move) :
    Reaches effects (instruction :: more) s p t ↔
      (p = 0 ∧ t = s) ∨ ∃ (skip : Nat) (u : State ρ) (q : Nat),
        instruction.Acts effects s (skip + 1) u ∧ p = q + 1 ∧
          more.Runs effects (skip, u) (q, t) := by
  have hcons := @runs_append ρ effects [instruction] more s t 0 p hmore
  simp only [runs_single hahead, List.length_singleton, Nat.lt_one_iff] at hcons
  refine hcons.trans ⟨?_, ?_⟩
  · rintro (⟨rfl, ⟨-, rfl⟩ | ⟨skip, hskip, -⟩⟩ |
      ⟨r, u, q, ⟨hr, -⟩ | ⟨skip, hskip, hacts⟩, rfl, hrun⟩)
    · exact .inl ⟨rfl, rfl⟩
    · omega
    · omega
    · obtain rfl : r = skip := by omega
      exact .inr ⟨r, u, q, hacts, Nat.add_comm 1 q, hrun⟩
  · rintro (⟨rfl, rfl⟩ | ⟨skip, u, q, hacts, rfl, hrun⟩)
    · exact .inl ⟨rfl, .inl ⟨rfl, rfl⟩⟩
    · exact .inr ⟨skip, u, q, .inr ⟨skip, Nat.add_comm 1 skip, hacts⟩, Nat.add_comm q 1, hrun⟩

theorem reaches_cons_step {instruction : Instruction} (hmoves : instruction.moves = [1])
    (hmore : more.Forward) :
    Reaches effects (instruction :: more) s p t ↔
      (p = 0 ∧ t = s) ∨ ∃ u q, instruction.Acts effects s 1 u ∧ p = q + 1 ∧
        more.Reaches effects u q t := by
  rw [reaches_cons hmore (by simp [hmoves])]
  refine or_congr Iff.rfl ⟨?_, ?_⟩
  · rintro ⟨skip, u, q, hacts, rfl, hrun⟩
    have hone := Instruction.mem_moves_of_acts hacts
    rw [hmoves, List.mem_singleton] at hone
    obtain rfl : skip = 0 := by omega
    exact ⟨u, q, hacts, rfl, hrun⟩
  · rintro ⟨u, q, hacts, rfl, hrun⟩
    exact ⟨0, u, q, hacts, rfl, hrun⟩

theorem forward_cons {instruction : Instruction} (hahead : ∀ move ∈ instruction.moves, 1 ≤ move)
    (hmore : more.Forward) : Forward (instruction :: more) := by
  refine @Forward.append [instruction] more ?_ hmore
  intro pos other hpos move hmove
  obtain ⟨rfl, rfl⟩ := eq_of_getElem?_singleton hpos
  have := hahead move hmove
  omega

theorem forward_effect {instruction : Instruction} (heffect : instruction.isEffect = true)
    (hmore : more.Forward) : Forward (instruction :: more) :=
  forward_cons (Instruction.ahead_of_isEffect heffect) hmore

theorem closed_effect {instruction : Instruction} (heffect : instruction.isEffect = true)
    (hmore : more.Closed) : Closed (instruction :: more) := by
  refine closed_cons (fun move hmove => ?_) hmore
  rw [Instruction.moves_of_isEffect heffect, List.mem_singleton] at hmove
  omega

theorem reaches_effect {instruction : Instruction} (heffect : instruction.isEffect = true)
    (hmore : more.Forward) :
    Reaches effects (instruction :: more) s p t ↔
      (p = 0 ∧ t = s) ∨
        ∃ v q, effects instruction s v ∧ p = q + 1 ∧ more.Reaches effects v q t := by
  rw [reaches_cons_step (Instruction.moves_of_isEffect heffect) hmore]
  simp only [Instruction.acts_iff_of_isEffect heffect, and_true]

theorem reaches_effect_single {instruction : Instruction} (heffect : instruction.isEffect = true) :
    Reaches effects [instruction] s p t ↔
      (p = 0 ∧ t = s) ∨ (p = 1 ∧ effects instruction s t) := by
  rw [reaches_effect heffect forward_nil]
  simp only [reaches_nil]
  refine or_congr Iff.rfl ⟨?_, ?_⟩
  · rintro ⟨_, _, h, rfl, rfl, rfl⟩
    exact ⟨rfl, h⟩
  · rintro ⟨rfl, h⟩
    exact ⟨t, 0, h, rfl, rfl, rfl⟩

theorem passes_effect {instruction : Instruction} (heffect : instruction.isEffect = true) :
    Passes effects [instruction] s t ↔ effects instruction s t := by
  rw [Passes, reaches_effect_single heffect]
  simp

theorem step_effect {pos : Nat} {instruction : Instruction}
    (hget : code[pos]? = some instruction) (heffect : instruction.isEffect = true) :
    code.Step effects (pos, s) (q, t) ↔ q = pos + 1 ∧ effects instruction s t := by
  simp only [Step, hget, Option.some.injEq, exists_eq_left',
    Instruction.acts_iff_of_isEffect heffect]
  constructor
  · rintro ⟨h, hmove⟩
    exact ⟨by omega, h⟩
  · rintro ⟨rfl, h⟩
    exact ⟨h, by omega⟩

theorem reaches_end {instruction : Instruction} (hfirst : first.Closed) (hmore : more.Forward)
    (hahead : ∀ move ∈ instruction.moves, 1 ≤ move) :
    (first ++ instruction :: more).Reaches effects s first.length t ↔
      first.Passes effects s t := by
  refine (reaches_append_right (p := 0) hfirst (forward_cons hahead hmore)).trans ?_
  simp only [reaches_cons hmore hahead]
  constructor
  · rintro ⟨u, hpasses, ⟨-, rfl⟩ | ⟨_, _, _, -, hzero, -⟩⟩
    · exact hpasses
    · cases hzero
  · intro hpasses
    exact ⟨t, hpasses, .inl ⟨trivial, rfl⟩⟩

theorem reaches_isNull {value : Bool} (hmore : more.Forward) (htop : s.TopIsNull value) :
    Reaches effects (.isNull :: more) s p t ↔
      (p = 0 ∧ t = s) ∨ ∃ q, p = q + 1 ∧ more.Reaches effects (s.push (.bool value)) q t := by
  have hmoves : Instruction.isNull.moves = [1] := rfl
  rw [reaches_cons_step hmoves hmore]
  refine or_congr Iff.rfl ⟨?_, ?_⟩
  · rintro ⟨_, q, ⟨other, hother, rfl, -⟩, rfl, hrun⟩
    obtain rfl := htop.unique hother
    exact ⟨q, rfl, hrun⟩
  · rintro ⟨q, rfl, hrun⟩
    exact ⟨_, q, ⟨value, htop, rfl, rfl⟩, rfl, hrun⟩

theorem forward_skipIf (count : Nat) (hmore : more.Forward) :
    Forward (.skipIf count :: more) :=
  forward_cons (Instruction.ahead_skipIf count) hmore

theorem reaches_skipIf {count : Nat} (hmore : more.Forward) :
    Reaches effects (.skipIf count :: more) s p t ↔
      (p = 0 ∧ t = s) ∨
        (∃ u q, s.Pops false u ∧ p = q + 1 ∧ more.Reaches effects u q t) ∨
        ∃ u q, s.Pops true u ∧ p = q + 1 ∧ more.Runs effects (count, u) (q, t) := by
  rw [reaches_cons hmore (Instruction.ahead_skipIf count)]
  refine or_congr Iff.rfl ⟨?_, ?_⟩
  · rintro ⟨skip, u, q, ⟨_ | _, hpops, hskip⟩, rfl, hrun⟩
    · have hone : (skip : Int) + 1 = 1 := hskip
      obtain rfl : skip = 0 := by omega
      exact .inl ⟨u, q, hpops, rfl, hrun⟩
    · have hcount : (skip : Int) + 1 = count + 1 := hskip
      obtain rfl : skip = count := by omega
      exact .inr ⟨u, q, hpops, rfl, hrun⟩
  · rintro (⟨u, q, hpops, rfl, hrun⟩ | ⟨u, q, hpops, rfl, hrun⟩)
    · exact ⟨0, u, q, ⟨false, hpops, rfl⟩, rfl, hrun⟩
    · exact ⟨count, u, q, ⟨true, hpops, rfl⟩, rfl, hrun⟩

theorem reaches_skipOver (hfirst : first.Forward) (hmore : more.Forward) :
    Reaches effects (.skipIf first.length :: (first ++ more)) s p t ↔
      (p = 0 ∧ t = s) ∨
        (∃ u q, s.Pops false u ∧ p = q + 1 ∧ (first ++ more).Reaches effects u q t) ∨
        ∃ u q, s.Pops true u ∧ p = first.length + 1 + q ∧ more.Reaches effects u q t := by
  rw [reaches_skipIf (hfirst.append hmore)]
  refine or_congr Iff.rfl (or_congr Iff.rfl ⟨?_, ?_⟩)
  · rintro ⟨u, q, hpops, rfl, hrun⟩
    obtain ⟨q, rfl, hrest⟩ := (runs_append_right (p := 0) hmore).mp hrun
    exact ⟨u, q, hpops, by omega, hrest⟩
  · rintro ⟨u, q, hpops, rfl, hrest⟩
    exact ⟨u, first.length + q, hpops, by omega,
      (runs_append_right (p := 0) hmore).mpr ⟨q, rfl, hrest⟩⟩

theorem reaches_jumpOver (hfirst : first.Forward) (hmore : more.Forward) :
    Reaches effects (.jumpForward first.length :: (first ++ more)) s p t ↔
      (p = 0 ∧ t = s) ∨ ∃ q, p = first.length + 1 + q ∧ more.Reaches effects s q t := by
  rw [reaches_cons (hfirst.append hmore) (Instruction.ahead_jumpForward first.length)]
  refine or_congr Iff.rfl ⟨?_, ?_⟩
  · rintro ⟨skip, _, q, ⟨rfl, hskip⟩, rfl, hrun⟩
    obtain rfl : skip = first.length := by omega
    obtain ⟨q, rfl, hrest⟩ := (runs_append_right (p := 0) hmore).mp hrun
    exact ⟨q, by omega, hrest⟩
  · rintro ⟨q, rfl, hrest⟩
    exact ⟨first.length, s, first.length + q, ⟨rfl, rfl⟩, by omega,
      (runs_append_right (p := 0) hmore).mpr ⟨q, rfl, hrest⟩⟩

theorem forward_jumpForward (offset : Nat) (hmore : more.Forward) :
    Forward (.jumpForward offset :: more) :=
  forward_cons (Instruction.ahead_jumpForward offset) hmore

theorem closed_jumpToEnd (hmore : more.Closed) : Closed (.jumpForward more.length :: more) := by
  refine closed_cons (fun move hmove => ?_) hmore
  obtain rfl := List.mem_singleton.mp hmove
  omega

theorem reaches_jumpToEnd (hmore : more.Forward) :
    Reaches effects (.jumpForward more.length :: more) s p t ↔
      (p = 0 ∨ p = more.length + 1) ∧ t = s := by
  have hover := @reaches_jumpOver ρ effects more [] s t p hmore forward_nil
  rw [List.append_nil] at hover
  rw [hover, or_and_right]
  refine or_congr Iff.rfl ⟨?_, ?_⟩
  · rintro ⟨_, rfl, hnil⟩
    obtain ⟨rfl, rfl⟩ := reaches_nil.mp hnil
    exact ⟨rfl, rfl⟩
  · rintro ⟨rfl, rfl⟩
    exact ⟨0, rfl, reaches_nil.mpr ⟨rfl, rfl⟩⟩

/-- A choice between two parts: a false value leads through the first one and over the second, a
true value leads to the second. -/
theorem reaches_choice (hfirst : first.Closed) (hmore : more.Forward) :
    Reaches effects (.skipIf (first.length + 1) :: (first ++ .jumpForward more.length :: more))
        s p t ↔
      (p = 0 ∧ t = s) ∨
        (∃ u q, s.Pops false u ∧ q ≤ first.length ∧ p = q + 1 ∧ first.Reaches effects u q t) ∨
        (∃ u q, s.Pops true u ∧ p = first.length + 2 + q ∧ more.Reaches effects u q t) ∨
        (p = first.length + 2 + more.length ∧ ∃ u, s.Pops false u ∧ first.Passes effects u t) := by
  have hjump := forward_jumpForward more.length hmore
  rw [reaches_skipIf (hfirst.forward.append hjump)]
  refine or_congr Iff.rfl ⟨?_, ?_⟩
  · rintro (⟨u, q, hpops, rfl, hrun⟩ | ⟨u, q, hpops, rfl, hrun⟩)
    · rcases (reaches_append hfirst hjump).mp hrun with ⟨hlt, hinside⟩ | ⟨v, q, hpasses, rfl, hrest⟩
      · exact .inl ⟨u, q, hpops, Nat.le_of_lt hlt, rfl, hinside⟩
      · obtain ⟨rfl | rfl, rfl⟩ := (reaches_jumpToEnd hmore).mp hrest
        · exact .inl ⟨u, first.length, hpops, Nat.le_refl _, rfl, hpasses⟩
        · exact .inr (.inr ⟨by omega, u, hpops, hpasses⟩)
    · obtain ⟨q, rfl, hrest⟩ := (runs_append_right hjump).mp hrun
      obtain ⟨q, rfl, hinside⟩ := (@runs_append_right ρ effects [_] more u t 0 q hmore).mp hrest
      exact .inr (.inl ⟨u, q, hpops, by rw [List.length_singleton]; omega, hinside⟩)
  · rintro (⟨u, q, hpops, hle, rfl, hinside⟩ | ⟨u, q, hpops, rfl, hinside⟩ |
      ⟨rfl, u, hpops, hpasses⟩)
    · exact .inl ⟨u, q, hpops, rfl, hinside.append_left _⟩
    · refine .inr ⟨u, first.length + (1 + q), hpops, by omega, ?_⟩
      exact (runs_append_right hjump).mpr
        ⟨1 + q, rfl, (@runs_append_right ρ effects [_] more u t 0 _ hmore).mpr ⟨q, rfl, hinside⟩⟩
    · refine .inl ⟨u, first.length + (more.length + 1), hpops, by omega, ?_⟩
      exact (reaches_append_right hfirst hjump).mpr
        ⟨t, hpasses, (reaches_jumpToEnd hmore).mpr ⟨.inr rfl, rfl⟩⟩

theorem reaches_again :
    Reaches effects (code ++ [.jumpBack code.length]) s p t ↔
      ∃ u, Relation.ReflTransGen (code.Passes effects) s u ∧ code.Reaches effects u p t := by
  constructor
  · intro h
    rw [Reaches] at h
    generalize hc : (p, t) = c at h
    induction h generalizing p t with
    | refl =>
        obtain ⟨rfl, rfl⟩ := Prod.mk.inj hc
        exact ⟨t, .refl, .refl⟩
    | @tail c _ _ hstep ih =>
        subst hc
        obtain ⟨q, v⟩ := c
        obtain ⟨u, hrounds, hreaches⟩ := ih rfl
        rcases Nat.lt_or_ge q code.length with hlt | hge
        · exact ⟨u, hrounds, hreaches.tail ((step_append_left hlt).mp hstep)⟩
        · obtain ⟨instruction, hinstruction, hacts⟩ := hstep
          rw [List.getElem?_append_right hge] at hinstruction
          obtain ⟨hlast, rfl⟩ := eq_of_getElem?_singleton hinstruction
          obtain rfl : q = code.length := by omega
          obtain ⟨rfl, hmove⟩ := hacts
          obtain rfl : p = 0 := by
            simp only at hmove
            omega
          exact ⟨_, hrounds.tail hreaches, .refl⟩
  · rintro ⟨u, hrounds, hreaches⟩
    refine Relation.ReflTransGen.trans ?_ (hreaches.append_left _)
    refine hrounds.lift' (fun v => (0, v)) fun v w hpasses => ?_
    refine (hpasses.append_left _).tail ⟨.jumpBack code.length, ?_, rfl, ?_⟩
    · rw [List.getElem?_append_right (Nat.le_refl _), Nat.sub_self]
      rfl
    · simp

/-- A test is run and leaves a truth value, which is taken off the stack. -/
def Decides (effects : Effects ρ) (test : Code) (s : State ρ) (value : Bool) (t : State ρ) : Prop :=
  ∃ u, test.Passes effects s u ∧ u.Pops value t

/-- Any number of rounds of a loop, each after a test that was false. -/
def Rounds (effects : Effects ρ) (test body : Code) : State ρ → State ρ → Prop :=
  Relation.ReflTransGen fun s t => ∃ u, test.Decides effects s false u ∧ body.Passes effects u t

variable {test body : Code}

theorem reaches_guarded (htest : test.Closed) (hbody : body.Closed) :
    (test ++ .skipIf (body.length + 1) :: body).Reaches effects s p t ↔
      (p ≤ test.length ∧ test.Reaches effects s p t) ∨
        (∃ u q, test.Decides effects s false u ∧ q ≤ body.length ∧ p = test.length + 1 + q ∧
          body.Reaches effects u q t) ∨
        (p = test.length + 1 + (body.length + 1) ∧ test.Decides effects s true t) := by
  rw [reaches_append htest (forward_skipIf _ hbody.forward)]
  simp only [reaches_skipIf hbody.forward, runs_of_length_le (Nat.le_succ body.length),
    Prod.mk.injEq]
  constructor
  · rintro (⟨hlt, htest⟩ | ⟨v, _, hpasses, rfl, ⟨rfl, rfl⟩ | ⟨u, q, hpops, rfl, hrun⟩ |
      ⟨_, _, hpops, rfl, rfl, rfl⟩⟩)
    · exact .inl ⟨Nat.le_of_lt hlt, htest⟩
    · exact .inl ⟨Nat.le_refl _, hpasses⟩
    · exact .inr (.inl ⟨u, q, ⟨v, hpasses, hpops⟩, hbody.le_of_reaches hrun, by omega, hrun⟩)
    · exact .inr (.inr ⟨by omega, v, hpasses, hpops⟩)
  · rintro (⟨hle, htest⟩ | ⟨u, q, ⟨v, hpasses, hpops⟩, -, rfl, hrun⟩ | ⟨rfl, v, hpasses, hpops⟩)
    · rcases Nat.eq_or_lt_of_le hle with rfl | hlt
      · exact .inr ⟨t, 0, htest, rfl, .inl ⟨rfl, rfl⟩⟩
      · exact .inl ⟨hlt, htest⟩
    · exact .inr ⟨v, q + 1, hpasses, by omega, .inr (.inl ⟨u, q, hpops, rfl, hrun⟩)⟩
    · exact .inr ⟨v, body.length + 2, hpasses, by omega, .inr (.inr ⟨t, _, hpops, rfl, rfl, rfl⟩)⟩

theorem length_guarded (test body : Code) (count : Nat) :
    (test ++ .skipIf count :: body).length = test.length + 1 + body.length := by
  rw [List.length_append, List.length_cons]
  omega

theorem passes_guarded (htest : test.Closed) (hbody : body.Closed) :
    (test ++ .skipIf (body.length + 1) :: body).Passes effects s t ↔
      ∃ u, test.Decides effects s false u ∧ body.Passes effects u t := by
  rw [Passes, length_guarded, reaches_guarded htest hbody]
  constructor
  · rintro (⟨hle, -⟩ | ⟨u, q, hdecides, -, hq, hrun⟩ | ⟨hp, -⟩)
    · omega
    · obtain rfl : q = body.length := by omega
      exact ⟨u, hdecides, hrun⟩
    · omega
  · rintro ⟨u, hdecides, hpasses⟩
    exact .inr (.inl ⟨u, body.length, hdecides, Nat.le_refl _, rfl, hpasses⟩)

theorem reaches_rounds (htest : test.Closed) (hbody : body.Closed) :
    ((test ++ Instruction.skipIf (body.length + 1) :: body) ++
        [Instruction.jumpBack (test.length + 1 + body.length)]).Reaches effects s p t ↔
      ∃ u, Rounds effects test body s u ∧
        (test ++ .skipIf (body.length + 1) :: body).Reaches effects u p t := by
  rw [← length_guarded test body (body.length + 1), reaches_again, Rounds]
  simp only [← passes_guarded htest hbody]

/-- A loop: its body is run after each test that was false, then comes the test again. A test that
was true leads to what follows the loop. -/
theorem reaches_loop (htest : test.Closed) (hbody : body.Closed) (hmore : more.Forward) :
    ((test ++ Instruction.skipIf (body.length + 1) :: body) ++
        Instruction.jumpBack (test.length + 1 + body.length) :: more).Reaches effects s p t ↔
      ∃ u, Rounds effects test body s u ∧
        ((p ≤ test.length ∧ test.Reaches effects u p t) ∨
          (∃ v q, test.Decides effects u false v ∧ q ≤ body.length ∧ p = test.length + 1 + q ∧
            body.Reaches effects v q t) ∨
          ∃ v q, test.Decides effects u true v ∧ p = test.length + 1 + (body.length + 1) + q ∧
            more.Reaches effects v q t) := by
  have hlength : ((test ++ Instruction.skipIf (body.length + 1) :: body) ++
      [Instruction.jumpBack (test.length + 1 + body.length)]).length =
        test.length + 1 + body.length + 1 := by
    rw [List.length_append, length_guarded, List.length_singleton]
  -- The rounds are no closed part: a true test skips the jump back, to behind their end.
  rw [List.append_cons, reaches_append_exits hmore, hlength]
  simp only [reaches_rounds htest hbody, reaches_guarded htest hbody]
  constructor
  · rintro (⟨hlt, u, hu, h | h | ⟨hp, -⟩⟩ |
      ⟨r, v, q, ⟨u, hu, ⟨hle, -⟩ | ⟨_, _, -, hle, hp, -⟩ | ⟨hp, hdecides⟩⟩, rfl, hrest⟩)
    · exact ⟨u, hu, .inl h⟩
    · exact ⟨u, hu, .inr (.inl h)⟩
    · omega
    · omega
    · omega
    · obtain rfl : r = 0 := by omega
      exact ⟨u, hu, .inr (.inr ⟨v, q, hdecides, by omega, hrest⟩)⟩
  · rintro ⟨u, hu, ⟨hle, hrun⟩ | ⟨v, q, hdecides, hle, rfl, hrun⟩ | ⟨v, q, hdecides, rfl, hrest⟩⟩
    · exact .inl ⟨by omega, u, hu, .inl ⟨hle, hrun⟩⟩
    · exact .inl ⟨by omega, u, hu, .inr (.inl ⟨v, q, hdecides, hle, rfl, hrun⟩)⟩
    · exact .inr ⟨0, v, q, ⟨u, hu, .inr (.inr ⟨by omega, hdecides⟩)⟩, by omega, hrest⟩

end Code

end StoredProcedure
