import StoredProcedure.Proofs.Machine

/-!
Running a part of a code. `Code.Leads` says where a part leads to from a memory, in whatever code
and at whatever position it stands: behind itself, with another memory, or to a return. Parts that
lead somewhere are put together one after the other, with jumps over parts and with a jump back to
the start of a round.
-/

namespace StoredProcedure

namespace Code

/-- A part of a code stands at a position in it. -/
def Contains (program : Code) (pos : Nat) (part : Code) : Prop :=
  ∀ i, i < part.length → program[pos + i]? = part[i]?

theorem contains_append {program part more : Code} {pos : Nat} :
    program.Contains pos (part ++ more) ↔
      program.Contains pos part ∧ program.Contains (pos + part.length) more := by
  constructor
  · intro h
    refine ⟨fun i hi => ?_, fun i hi => ?_⟩
    · rw [h i (by rw [List.length_append]; omega), List.getElem?_append_left hi]
    · have := h (part.length + i) (by rw [List.length_append]; omega)
      rwa [← Nat.add_assoc, List.getElem?_append_right (by omega), Nat.add_sub_cancel_left] at this
  · rintro ⟨hpart, hmore⟩ i hi
    rw [List.length_append] at hi
    rcases Nat.lt_or_ge i part.length with hlt | hge
    · rw [List.getElem?_append_left hlt, hpart i hlt]
    · rw [List.getElem?_append_right hge, ← hmore (i - part.length) (by omega)]
      congr 1
      omega

theorem contains_cons {program rest : Code} {pos : Nat} {instruction : Instruction} :
    program.Contains pos (instruction :: rest) ↔
      program[pos]? = some instruction ∧ program.Contains (pos + 1) rest := by
  rw [← List.singleton_append, contains_append]
  constructor
  · rintro ⟨h, hrest⟩
    exact ⟨h 0 Nat.zero_lt_one, hrest⟩
  · rintro ⟨h, hrest⟩
    refine ⟨fun i hi => ?_, hrest⟩
    obtain rfl : i = 0 := Nat.lt_one_iff.mp hi
    exact h

end Code

/-- How the run of a part ends: behind the part, or with a return. -/
inductive Ending where
  | behind (m : Memory)
  | returned (value : Datum) (calls : List Call)

/-- A machine is at the end of a part of a code, `pos` being the position behind the part. -/
def Ending.Reached (program : Code) (pos : Nat) (machine : Machine) : Ending → Prop
  | .behind m => machine = ⟨pos, m⟩
  | .returned value calls =>
      ∃ m, machine.step program = some (.stopped ⟨some value, none, m⟩) ∧ m.calls = calls

namespace Code

/-- Running a part from a memory comes to an end. -/
def Leads (part : Code) (m : Memory) (ending : Ending) : Prop :=
  ∀ (program : Code) (pos : Nat), program.Contains pos part →
    ∃ machine, Machine.Steps program ⟨pos, m⟩ machine ∧
      ending.Reached program (pos + part.length) machine

theorem leads_nil (m : Memory) : Leads [] m (.behind m) :=
  fun _ pos _ => ⟨⟨pos, m⟩, .refl, rfl⟩

theorem Leads.append {part more : Code} {m n : Memory} {ending : Ending}
    (hpart : part.Leads m (.behind n)) (hmore : more.Leads n ending) :
    (part ++ more).Leads m ending := by
  intro program pos hcontains
  obtain ⟨hfirst, hsecond⟩ := contains_append.mp hcontains
  obtain ⟨_, hsteps, rfl⟩ := hpart program pos hfirst
  obtain ⟨machine, hmoreSteps, hreached⟩ := hmore program _ hsecond
  refine ⟨machine, hsteps.trans hmoreSteps, ?_⟩
  rwa [List.length_append, ← Nat.add_assoc]

theorem Leads.append_returned {part : Code} {m : Memory} {value : Datum} {calls : List Call}
    (hpart : part.Leads m (.returned value calls)) (more : Code) :
    (part ++ more).Leads m (.returned value calls) := by
  intro program pos hcontains
  exact hpart program pos (contains_append.mp hcontains).1

theorem Leads.over {instruction : Instruction} (part : Code) {rest : Code} {m n : Memory}
    {ending : Ending}
    (hexec : ∀ cursor, instruction.exec cursor m = some (.running ⟨cursor + 1 + part.length, n⟩))
    (hrest : rest.Leads n ending) : Leads (instruction :: (part ++ rest)) m ending := by
  intro program pos hcontains
  obtain ⟨hinstruction, htail⟩ := contains_cons.mp hcontains
  obtain ⟨machine, hsteps, hreached⟩ := hrest program _ (contains_append.mp htail).2
  refine ⟨machine, hsteps.head ?_, ?_⟩
  · rw [Machine.step, hinstruction]
    exact hexec pos
  · rw [List.length_cons, List.length_append]
    rwa [show pos + (part.length + rest.length + 1) = pos + 1 + part.length + rest.length by omega]

theorem Leads.cons {instruction : Instruction} {rest : Code} {m n : Memory} {ending : Ending}
    (hexec : ∀ cursor, instruction.exec cursor m = some (.running ⟨cursor + 1, n⟩))
    (hrest : rest.Leads n ending) : Leads (instruction :: rest) m ending :=
  Leads.over [] hexec hrest

theorem leads_single {instruction : Instruction} {m n : Memory}
    (hexec : ∀ cursor, instruction.exec cursor m = some (.running ⟨cursor + 1, n⟩)) :
    Leads [instruction] m (.behind n) :=
  Leads.cons hexec (leads_nil n)

theorem leads_return {instruction : Instruction} {m n : Memory} {value : Datum}
    (hexec : ∀ cursor, instruction.exec cursor m = some (.stopped ⟨some value, none, n⟩)) :
    Leads [instruction] m (.returned value n.calls) := by
  intro program pos hcontains
  refine ⟨⟨pos, m⟩, .refl, n, ?_, rfl⟩
  rw [Machine.step, (contains_cons.mp hcontains).1]
  exact hexec pos

/-- A round that ends with a jump back to its start is followed by what the memory after it leads
to. -/
theorem Leads.again {round rest : Code} {m n : Memory} {ending : Ending}
    (hround : round.Leads m (.behind n))
    (hnext : (round ++ .jumpBack round.length :: rest).Leads n ending) :
    (round ++ .jumpBack round.length :: rest).Leads m ending := by
  intro program pos hcontains
  obtain ⟨hfirst, hjump⟩ := contains_append.mp hcontains
  obtain ⟨_, hsteps, rfl⟩ := hround program pos hfirst
  obtain ⟨machine, hnextSteps, hreached⟩ := hnext program pos hcontains
  refine ⟨machine, (hsteps.tail ?_).trans hnextSteps, hreached⟩
  rw [Machine.step, (contains_cons.mp hjump).1]
  simp only [Instruction.jumpBack, Instruction.exec, Nat.le_add_left, if_true,
    Nat.add_sub_cancel]

end Code

end StoredProcedure
