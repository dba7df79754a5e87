import Mathlib.Data.List.Basic
import StoredProcedure.Instruction.Basic

/-!
Facts that are kept along the control flow of code. An `effect` says what an instruction requires to
be known before it and what is known after it. `Code.Flows` says that something is known at each
position of a part of a code, that every instruction keeps this up along each of its moves, and where
and with what knowledge the part is left. Parts with skips, jumps and loops are put together from
smaller ones by looking at their exits only.
-/

namespace StoredProcedure

/-- How far the cursor may move after an instruction, counted from the instruction. -/
def Instruction.moves : Instruction → List Int
  | .skipIf count => [1, count + 1]
  | .jump offset true => [offset + 1]
  | .jump offset false => [-offset]
  | .returnTop | .returnVoid | .raise _ => []
  | _ => [1]

namespace Code

variable {σ : Type} {effect : Instruction → σ → σ → Prop}

/-- At `target`, `s` is known: inside the code it is the level there, and behind the code there is
such an exit. Exits are counted from the end. -/
def Arrives (code : Code) (levels : Nat → σ) (exits : List (Nat × σ)) (target : Int) (s : σ) :
    Prop :=
  (∃ pos, pos < code.length ∧ (pos : Int) = target ∧ levels pos = s) ∨
    ∃ exit, ((code.length + exit : Nat) : Int) = target ∧ (exit, s) ∈ exits

/-- Entered with `enter` known, the code keeps what is known, and is left by the exits only. -/
def Flows (effect : Instruction → σ → σ → Prop) (code : Code) (enter : σ)
    (exits : List (Nat × σ)) : Prop :=
  ∃ levels : Nat → σ, code.Arrives levels exits 0 enter ∧
    ∀ pos instruction, code[pos]? = some instruction →
      ∃ s, effect instruction (levels pos) s ∧
        ∀ move ∈ instruction.moves, code.Arrives levels exits (pos + move) s

theorem eq_of_getElem?_singleton {instruction other : Instruction} {pos : Nat}
    (h : [instruction][pos]? = some other) : pos = 0 ∧ instruction = other := by
  cases pos with
  | zero => exact ⟨rfl, Option.some.inj h⟩
  | succ pos => cases h

theorem forall_mem_pair {holds : Nat → σ → Prop} {exit other : Nat} {a b : σ}
    (ha : holds exit a) (hb : holds other b) :
    ∀ k s, (k, s) ∈ [(exit, a), (other, b)] → holds k s := by
  intro k s h
  rcases List.mem_pair.mp h with h | h <;> obtain ⟨rfl, rfl⟩ := Prod.mk.inj h
  · exact ha
  · exact hb

theorem Flows.mono {code : Code} {a : σ} {exits more : List (Nat × σ)}
    (h : Flows effect code a exits) (hmore : exits ⊆ more) : Flows effect code a more := by
  obtain ⟨levels, henter, hflow⟩ := h
  have harrives : ∀ (target : Int) (s : σ), code.Arrives levels exits target s →
      code.Arrives levels more target s := by
    rintro target s (hinside | ⟨exit, htarget, hexit⟩)
    · exact .inl hinside
    · exact .inr ⟨exit, htarget, hmore hexit⟩
  refine ⟨levels, harrives 0 a henter, fun pos instruction hpos => ?_⟩
  obtain ⟨s, heffect, hmoves⟩ := hflow pos instruction hpos
  exact ⟨s, heffect, fun move hmove => harrives _ s (hmoves move hmove)⟩

theorem flows_nil (a : σ) : Flows effect [] a [(0, a)] :=
  ⟨fun _ => a, .inr ⟨0, rfl, List.mem_singleton.mpr rfl⟩, nofun⟩

theorem flows_single {instruction : Instruction} {a b : σ} {exits : List (Nat × σ)}
    (heffect : effect instruction a b)
    (hmoves : ∀ move ∈ instruction.moves, ∃ exit : Nat, move = exit + 1 ∧ (exit, b) ∈ exits) :
    Flows effect [instruction] a exits := by
  refine ⟨fun _ => a, .inl ⟨0, Nat.zero_lt_one, rfl, rfl⟩, fun pos other hpos => ?_⟩
  obtain ⟨rfl, rfl⟩ := eq_of_getElem?_singleton hpos
  refine ⟨b, heffect, fun move hmove => .inr ?_⟩
  obtain ⟨exit, rfl, hexit⟩ := hmoves move hmove
  exact ⟨exit, by simp [Int.add_comm], hexit⟩

theorem flows_step {instruction : Instruction} {a b : σ} (hmoves : instruction.moves = [1])
    (heffect : effect instruction a b) : Flows effect [instruction] a [(0, b)] := by
  refine flows_single heffect fun move hmove => ⟨0, ?_, List.mem_singleton.mpr rfl⟩
  rw [hmoves] at hmove
  exact List.mem_singleton.mp hmove

/-- Behind an instruction that ends the run anything may be supposed. -/
theorem flows_stop {instruction : Instruction} {a b : σ} (hmoves : instruction.moves = [])
    (heffect : effect instruction a b) (exits : List (Nat × σ)) :
    Flows effect [instruction] a exits :=
  flows_single heffect fun move hmove => by
    rw [hmoves] at hmove
    cases hmove

theorem flows_skipIf {count : Nat} {a b : σ} (heffect : effect (.skipIf count) a b) :
    Flows effect [.skipIf count] a [(0, b), (count, b)] := by
  refine flows_single heffect fun move hmove => ?_
  rcases List.mem_pair.mp hmove with rfl | rfl
  · exact ⟨0, rfl, List.mem_cons_self⟩
  · exact ⟨count, rfl, List.mem_cons_of_mem _ List.mem_cons_self⟩

theorem flows_jumpForward {offset : Nat} {a b : σ} (heffect : effect (.jumpForward offset) a b) :
    Flows effect [.jumpForward offset] a [(offset, b)] := by
  refine flows_single heffect fun move hmove => ⟨offset, ?_, List.mem_singleton.mpr rfl⟩
  exact List.mem_singleton.mp hmove

/-- Two parts after each other. The first one is left to the second one or behind it. -/
theorem Flows.append {part more : Code} {a b : σ} {inner exits : List (Nat × σ)}
    (hpart : Flows effect part a inner) (hmore : Flows effect more b exits)
    (hexits : ∀ exit s, (exit, s) ∈ inner →
      (exit = 0 ∧ s = b) ∨ ∃ rest, exit = more.length + rest ∧ (rest, s) ∈ exits) :
    Flows effect (part ++ more) a exits := by
  obtain ⟨first, henter, hfirst⟩ := hpart
  obtain ⟨second, hmiddle, hsecond⟩ := hmore
  let levels := fun pos => if pos < part.length then first pos else second (pos - part.length)
  have hright : ∀ (target : Int) (s : σ), more.Arrives second exits target s →
      (part ++ more).Arrives levels exits (part.length + target) s := by
    rintro _ s (⟨pos, hpos, rfl, rfl⟩ | ⟨exit, rfl, hexit⟩)
    · refine .inl ⟨part.length + pos, ?_, by omega, ?_⟩
      · rw [List.length_append]
        omega
      · simp only [levels, Nat.not_lt.mpr (Nat.le_add_right _ _), if_false, Nat.add_sub_cancel_left]
    · refine .inr ⟨exit, ?_, hexit⟩
      rw [List.length_append]
      omega
  have hleft : ∀ (target : Int) (s : σ), part.Arrives first inner target s →
      (part ++ more).Arrives levels exits target s := by
    rintro _ s (⟨pos, hpos, rfl, rfl⟩ | ⟨exit, rfl, hexit⟩)
    · refine .inl ⟨pos, ?_, rfl, if_pos hpos⟩
      rw [List.length_append]
      omega
    · rcases hexits exit s hexit with ⟨rfl, rfl⟩ | ⟨rest, rfl, hrest⟩
      · exact hright 0 s hmiddle
      · refine .inr ⟨rest, ?_, hrest⟩
        rw [List.length_append, Nat.add_assoc]
  refine ⟨levels, hleft 0 a henter, fun pos instruction hpos => ?_⟩
  rcases Nat.lt_or_ge pos part.length with hlt | hge
  · rw [List.getElem?_append_left hlt] at hpos
    obtain ⟨s, heffect, hmoves⟩ := hfirst pos instruction hpos
    refine ⟨s, ?_, fun move hmove => hleft _ s (hmoves move hmove)⟩
    simp only [levels, if_pos hlt]
    exact heffect
  · rw [List.getElem?_append_right hge] at hpos
    obtain ⟨s, heffect, hmoves⟩ := hsecond _ instruction hpos
    refine ⟨s, ?_, fun move hmove => ?_⟩
    · simp only [levels, if_neg (Nat.not_lt.mpr hge)]
      exact heffect
    · have h := hright _ s (hmoves move hmove)
      rwa [← Int.add_assoc, ← Int.natCast_add, Nat.add_sub_cancel' hge] at h

theorem Flows.andThen {part more : Code} {a b : σ} {exits : List (Nat × σ)}
    (hpart : Flows effect part a [(0, b)]) (hmore : Flows effect more b exits) :
    Flows effect (part ++ more) a exits :=
  hpart.append hmore fun exit s hexit => .inl <| by simpa using hexit

theorem flows_skipOver {part : Code} {a b : σ} (hskip : effect (.skipIf part.length) a b)
    (hpart : Flows effect part b [(0, b)]) :
    Flows effect (.skipIf part.length :: part) a [(0, b)] :=
  (flows_skipIf hskip).append hpart
    (forall_mem_pair (.inl ⟨rfl, rfl⟩) (.inr ⟨0, rfl, List.mem_singleton.mpr rfl⟩))

theorem flows_jumpOver {part : Code} {a b : σ} (hjump : effect (.jumpForward part.length) b b)
    (hpart : Flows effect part a [(0, b)]) :
    Flows effect (.jumpForward part.length :: part) b [(0, b)] :=
  (flows_jumpForward hjump).append hpart fun exit s hexit => by
    obtain ⟨rfl, rfl⟩ := Prod.mk.inj (List.mem_singleton.mp hexit)
    exact .inr ⟨0, rfl, List.mem_singleton.mpr rfl⟩

/-- A choice between two parts: a skip leads over the first one and its jump to the second one. -/
theorem flows_choice {part other : Code} {a b c : σ}
    (hskip : effect (.skipIf (part.length + 1)) a b) (hpart : Flows effect part b [(0, c)])
    (hjump : effect (.jumpForward other.length) c c) (hother : Flows effect other b [(0, c)]) :
    Flows effect (.skipIf (part.length + 1) :: (part ++ .jumpForward other.length :: other)) a
      [(0, c)] := by
  have hfirst : Flows effect (part ++ [.jumpForward other.length]) b
      [(0, b), (other.length, c)] := by
    refine hpart.andThen (flows_single hjump fun move hmove => ⟨other.length, ?_, by simp⟩)
    exact List.mem_singleton.mp hmove
  have hboth : Flows effect ([.skipIf (part.length + 1)] ++ (part ++ [.jumpForward other.length])) a
      [(0, b), (other.length, c)] := by
    refine (flows_skipIf hskip).append hfirst (forall_mem_pair (.inl ⟨rfl, rfl⟩) (.inr ⟨0, ?_, ?_⟩))
    · rw [List.length_append, List.length_singleton, Nat.add_zero]
    · exact List.mem_cons_self
  have h := hboth.append hother
    (forall_mem_pair (.inl ⟨rfl, rfl⟩) (.inr ⟨0, rfl, List.mem_singleton.mpr rfl⟩))
  simpa using h

theorem Flows.again {part : Code} {a : σ} {inner exits : List (Nat × σ)}
    (hpart : Flows effect part a inner) (hjump : effect (.jumpBack part.length) a a)
    (hexits : ∀ exit s, (exit, s) ∈ inner →
      (exit = 0 ∧ s = a) ∨ ∃ rest, exit = rest + 1 ∧ (rest, s) ∈ exits) :
    Flows effect (part ++ [.jumpBack part.length]) a exits := by
  obtain ⟨first, henter, hfirst⟩ := hpart
  let levels := fun pos => if pos < part.length then first pos else a
  have hleft : ∀ (target : Int) (s : σ), part.Arrives first inner target s →
      Arrives (part ++ [.jumpBack part.length]) levels exits target s := by
    rintro _ s (⟨pos, hpos, rfl, rfl⟩ | ⟨exit, rfl, hexit⟩)
    · refine .inl ⟨pos, ?_, rfl, if_pos hpos⟩
      rw [List.length_append]
      omega
    · rcases hexits exit s hexit with ⟨rfl, rfl⟩ | ⟨rest, rfl, hrest⟩
      · refine .inl ⟨part.length, ?_, rfl, if_neg (Nat.lt_irrefl _)⟩
        rw [List.length_append]
        exact Nat.lt_succ_self _
      · refine .inr ⟨rest, ?_, hrest⟩
        rw [List.length_append, List.length_singleton]
        omega
  refine ⟨levels, hleft 0 a henter, fun pos instruction hpos => ?_⟩
  rcases Nat.lt_or_ge pos part.length with hlt | hge
  · rw [List.getElem?_append_left hlt] at hpos
    obtain ⟨s, heffect, hmoves⟩ := hfirst pos instruction hpos
    refine ⟨s, ?_, fun move hmove => hleft _ s (hmoves move hmove)⟩
    simp only [levels, if_pos hlt]
    exact heffect
  · rw [List.getElem?_append_right hge] at hpos
    obtain ⟨hlast, rfl⟩ := eq_of_getElem?_singleton hpos
    refine ⟨a, ?_, fun move hmove => ?_⟩
    · simp only [levels, if_neg (Nat.not_lt.mpr hge)]
      exact hjump
    · obtain rfl := List.mem_singleton.mp hmove
      have h := hleft 0 a henter
      rwa [show (pos : Int) + -(part.length : Int) = 0 by omega]

/-- A loop: a test, a skip that leaves the loop, a body, and a jump back to the test. -/
theorem flows_loop {test body : Code} {a b c : σ} (htest : Flows effect test a [(0, b)])
    (hskip : effect (.skipIf (body.length + 1)) b c) (hbody : Flows effect body c [(0, a)])
    (hjump : effect (.jumpBack (test ++ .skipIf (body.length + 1) :: body).length) a a) :
    Flows effect
      ((test ++ .skipIf (body.length + 1) :: body) ++
        [.jumpBack (test ++ .skipIf (body.length + 1) :: body).length]) a [(0, c)] := by
  have hround : Flows effect ([.skipIf (body.length + 1)] ++ body) b [(0, a), (1, c)] := by
    refine (flows_skipIf hskip).append (hbody.mono (by simp))
      (forall_mem_pair (.inl ⟨rfl, rfl⟩) (.inr ⟨1, rfl, by simp⟩))
  exact (htest.andThen hround).again hjump
    (forall_mem_pair (.inl ⟨rfl, rfl⟩) (.inr ⟨0, rfl, List.mem_singleton.mpr rfl⟩))

/-- What is known at each position, when the code is left at its end only. -/
theorem Flows.exists_levels {code : Code} {a b : σ} (h : Flows effect code a [(0, b)]) :
    ∃ levels : Nat → σ, levels 0 = a ∧ levels code.length = b ∧
      ∀ pos instruction, code[pos]? = some instruction →
        ∃ s, effect instruction (levels pos) s ∧
          ∀ move ∈ instruction.moves, ∃ target : Nat, (target : Int) = pos + move ∧
            target ≤ code.length ∧ levels target = s := by
  obtain ⟨inside, henter, hflow⟩ := h
  let levels := fun pos => if pos < code.length then inside pos else b
  have harrives : ∀ (target : Int) (s : σ), code.Arrives inside [(0, b)] target s →
      ∃ pos : Nat, (pos : Int) = target ∧ pos ≤ code.length ∧ levels pos = s := by
    rintro _ s (⟨pos, hpos, rfl, rfl⟩ | ⟨exit, rfl, hexit⟩)
    · exact ⟨pos, rfl, Nat.le_of_lt hpos, if_pos hpos⟩
    · obtain ⟨rfl, rfl⟩ := Prod.mk.inj (List.mem_singleton.mp hexit)
      exact ⟨code.length, rfl, Nat.le_refl _, if_neg (Nat.lt_irrefl _)⟩
  refine ⟨levels, ?_, if_neg (Nat.lt_irrefl _), fun pos instruction hpos => ?_⟩
  · obtain ⟨pos, hpos, -, hlevel⟩ := harrives 0 a henter
    obtain rfl := Int.natCast_eq_zero.mp hpos
    exact hlevel
  · obtain ⟨s, heffect, hmoves⟩ := hflow pos instruction hpos
    have hlt : pos < code.length := (List.getElem?_eq_some_iff.mp hpos).1
    refine ⟨s, ?_, fun move hmove => harrives _ s (hmoves move hmove)⟩
    simp only [levels, if_pos hlt]
    exact heffect

end Code

end StoredProcedure
