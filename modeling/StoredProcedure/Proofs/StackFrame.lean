import StoredProcedure.Proofs.Behaviour

namespace StoredProcedure

variable {ρ : Type} {effects : Effects ρ} {s t : State ρ}

/-- The stacks before and after an instruction that replaces its operands and keeps what lies below
them. -/
def Instruction.Replaces (instruction : Instruction) (before after : List Datum) : Prop :=
  ∃ taken left below : List Datum, before = taken ++ below ∧ after = left ++ below ∧
    taken.length = instruction.operands ∧
      (left.length : Int) = instruction.operands + instruction.net

/-- A machine whose instructions work on their operands only. -/
def KeepsBelow (effects : Effects ρ) : Prop :=
  ∀ instruction s t, instruction.isEffect = true → effects instruction s t →
    instruction.Replaces s.stack t.stack

theorem Instruction.replaces_of_acts (h : KeepsBelow effects) {instruction : Instruction}
    {move : Int} (hacts : instruction.Acts effects s move t) :
    instruction.Replaces s.stack t.stack := by
  by_cases heffect : instruction.isEffect = true
  · exact h instruction s t heffect ((acts_iff_of_isEffect heffect).mp hacts).1
  · cases instruction with
    | skipIf count =>
        obtain ⟨value, rfl, -⟩ := hacts
        exact ⟨[.bool value], [], t.stack, rfl, rfl, rfl, rfl⟩
    | jump offset forward =>
        have hsame : t = s := by
          cases forward with
          | true => exact hacts.1
          | false => exact hacts.1
        rw [hsame]
        exact ⟨[], [], s.stack, rfl, rfl, rfl, rfl⟩
    | negate =>
        obtain ⟨value, u, rfl, rfl, -⟩ := hacts
        exact ⟨[.bool value], [.bool !value], u.stack, rfl, rfl, rfl, rfl⟩
    | isNull =>
        obtain ⟨value, ⟨top, htop, -⟩, rfl, -⟩ := hacts
        obtain ⟨below, hbelow⟩ := List.head?_eq_some_iff.mp htop
        exact ⟨[top], [.bool value, top], below, hbelow, congrArg (_ :: ·) hbelow, rfl, rfl⟩
    | noop =>
        rw [hacts.1]
        exact ⟨[], [], s.stack, rfl, rfl, rfl, rfl⟩
    | returnTop | returnVoid | raise => exact hacts.elim
    | _ => exact absurd rfl heffect

namespace Code

variable {code : Code} {a b : Nat}

/-- What a part finds below its operands stays, wherever the machine comes to in the part. -/
theorem exists_above_of_reaches (h : KeepsBelow effects) {levels : Nat → Nat} {below : List Datum}
    (hlevels : ∀ (pos : Nat) instruction, code[pos]? = some instruction →
      ∃ after, instruction.StackEffect below.length (levels pos) after ∧
        ∀ move ∈ instruction.moves, ∃ target : Nat, (target : Int) = pos + move ∧
          target ≤ code.length ∧ levels target = after)
    {values : List Datum} (hstack : s.stack = values ++ below)
    (hlength : below.length + values.length = levels 0) {p : Nat}
    (hrun : code.Runs effects (0, s) (p, t)) :
    ∃ above, t.stack = above ++ below ∧ below.length + above.length = levels p := by
  generalize hc : (p, t) = c at hrun
  induction hrun generalizing p t with
  | refl =>
      obtain ⟨rfl, rfl⟩ := Prod.mk.inj hc
      exact ⟨values, hstack, hlength⟩
  | @tail c _ _ hstep ih =>
      subst hc
      obtain ⟨q, u⟩ := c
      obtain ⟨above, habove, hheight⟩ := ih rfl
      obtain ⟨instruction, hget, hacts⟩ := hstep
      obtain ⟨after, ⟨hoperands, hnet⟩, hmoves⟩ := hlevels q instruction hget
      obtain ⟨target, htarget, -, rfl⟩ := hmoves _ (Instruction.mem_moves_of_acts hacts)
      obtain rfl : target = p := by simp only at htarget; omega
      obtain ⟨taken, left, rest, hbefore, hafter, htaken, hleft⟩ :=
        Instruction.replaces_of_acts h hacts
      rw [habove] at hbefore
      obtain ⟨kept, rfl, rfl⟩ : ∃ kept, above = taken ++ kept ∧ rest = kept ++ below := by
        obtain ⟨kept, htakes, rfl⟩ | ⟨kept, rfl, rfl⟩ := List.append_eq_append_iff.mp hbefore
        · have hnil : kept = [] := by
            apply List.eq_nil_of_length_eq_zero
            have hlonger := congrArg List.length htakes
            rw [List.length_append] at hlonger
            omega
          subst hnil
          exact ⟨[], by simpa using htakes.symm, rfl⟩
        · exact ⟨kept, rfl, rfl⟩
      refine ⟨left ++ kept, by rw [hafter, List.append_assoc], ?_⟩
      rw [List.length_append] at hheight ⊢
      omega

theorem Shifts.exists_above (h : KeepsBelow effects) (hcode : code.Shifts a b)
    {values below : List Datum} (hstack : s.stack = values ++ below) (hlength : values.length = a)
    (hpasses : code.Passes effects s t) :
    ∃ above, t.stack = above ++ below ∧ above.length = b := by
  obtain ⟨levels, hstart, hend, hlevels⟩ := (hcode below.length).exists_levels
  obtain ⟨above, habove, hheight⟩ :=
    exists_above_of_reaches h hlevels hstack (by rw [hlength, hstart]) hpasses
  exact ⟨above, habove, by omega⟩

/-- The code is run and leaves a value on what it has found. -/
def Leaves (effects : Effects ρ) (code : Code) (s : State ρ) (value : Datum) (t : State ρ) : Prop :=
  code.Passes effects s t ∧ t.stack = value :: s.stack

theorem Shifts.exists_leaves (h : KeepsBelow effects) (hcode : code.Shifts 0 1)
    (hpasses : code.Passes effects s t) : ∃ value, code.Leaves effects s value t := by
  obtain ⟨above, habove, hlength⟩ := hcode.exists_above h (List.nil_append _).symm rfl hpasses
  obtain ⟨value, rfl⟩ := List.length_eq_one_iff.mp hlength
  exact ⟨value, hpasses, habove⟩

end Code

end StoredProcedure
