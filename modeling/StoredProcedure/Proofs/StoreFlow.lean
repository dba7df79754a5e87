import StoredProcedure.Proofs.Behaviour
import StoredProcedure.Proofs.StackLayout
import StoredProcedure.Proofs.StoreAccess
import StoredProcedure.Proofs.Traversal

namespace StoredProcedure

variable {ρ : Type} {effects : Effects ρ}

namespace Code

variable {more : Code} {s t u : State ρ} {p q : Nat} {value : Bool}

/-- Parts are run one after the other, each from its start to its end. -/
def InOrder (effects : Effects ρ) : List Code → State ρ → State ρ → Prop
  | [], s, t => t = s
  | part :: rest, s, t => ∃ u, part.Passes effects s u ∧ InOrder effects rest u t

theorem closed_flatten {parts : List Code} (h : ∀ part ∈ parts, part.Closed) :
    Closed parts.flatten := by
  induction parts with
  | nil => exact closed_nil
  | cons part rest ih =>
      rw [List.flatten_cons]
      exact (h part (.head _)).append (ih fun other hother => h other (.tail _ hother))

theorem passes_flatten {parts : List Code} (h : ∀ part ∈ parts, part.Closed) :
    Passes effects parts.flatten s t ↔ InOrder effects parts s t := by
  induction parts generalizing s with
  | nil =>
      refine reaches_nil.trans ?_
      simp [InOrder]
  | cons part rest ih =>
      have hrest : ∀ other ∈ rest, other.Closed := fun other hother => h other (.tail _ hother)
      rw [List.flatten_cons, passes_append (h part (.head _)) (closed_flatten hrest).forward]
      simp only [ih hrest, InOrder]

theorem reaches_raise {message : String} :
    Reaches effects (.raise message :: more) s p t ↔ p = 0 ∧ t = s := by
  constructor
  · intro h
    rcases h.cases_head with heq | ⟨_, ⟨instruction, hinstruction, hacts⟩, -⟩
    · obtain ⟨rfl, rfl⟩ := Prod.mk.inj heq
      exact ⟨rfl, rfl⟩
    · obtain rfl := Option.some.inj hinstruction
      exact hacts.elim
  · rintro ⟨rfl, rfl⟩
    exact .refl

theorem closed_keyFilter {first : Code} (hfirst : first.Closed) : (keyFilter first).Closed := by
  have hend : Closed [.setField 1] := closed_effect rfl closed_nil
  exact closed_effect rfl (closed_effect rfl (hfirst.append hend))

theorem reaches_null {skipped : Code} (hskipped : skipped.Forward) (hmore : more.Forward)
    (htop : s.TopIsNull true) :
    Reaches effects (.isNull :: .skipIf skipped.length :: (skipped ++ more)) s p t ↔
      (p = 0 ∧ t = s) ∨ (p = 1 ∧ t = s.push (.bool true)) ∨
        ∃ r, p = skipped.length + 2 + r ∧ more.Reaches effects s r t := by
  have hskip := forward_skipIf skipped.length (hskipped.append hmore)
  rw [reaches_isNull hskip htop]
  simp only [reaches_skipOver hskipped hmore, State.pops_push]
  refine or_congr Iff.rfl ⟨?_, ?_⟩
  · rintro ⟨_, rfl, ⟨rfl, rfl⟩ | ⟨_, _, ⟨hvalue, -⟩, -⟩ | ⟨_, r, ⟨-, rfl⟩, rfl, hrun⟩⟩
    · exact .inl ⟨rfl, rfl⟩
    · cases hvalue
    · exact .inr ⟨r, by omega, hrun⟩
  · rintro (⟨rfl, rfl⟩ | ⟨r, rfl, hrun⟩)
    · exact ⟨0, rfl, .inl ⟨rfl, rfl⟩⟩
    · exact ⟨skipped.length + 1 + r, by omega, .inr (.inr ⟨s, r, ⟨trivial, rfl⟩, rfl, hrun⟩)⟩

theorem reaches_notNull {count : Nat} (hmore : more.Forward) (htop : s.TopIsNull false) :
    Reaches effects (.isNull :: .skipIf count :: more) s p t ↔
      (p = 0 ∧ t = s) ∨ (p = 1 ∧ t = s.push (.bool false)) ∨
        ∃ q, p = q + 2 ∧ more.Reaches effects s q t := by
  rw [reaches_isNull (forward_skipIf count hmore) htop]
  simp only [reaches_skipIf hmore, State.pops_push]
  refine or_congr Iff.rfl ⟨?_, ?_⟩
  · rintro ⟨_, rfl, ⟨rfl, rfl⟩ | ⟨_, q, ⟨-, rfl⟩, rfl, hrun⟩ | ⟨_, _, ⟨hvalue, -⟩, -⟩⟩
    · exact .inl ⟨rfl, rfl⟩
    · exact .inr ⟨q, rfl, hrun⟩
    · cases hvalue
  · rintro (⟨rfl, rfl⟩ | ⟨q, rfl, hrun⟩)
    · exact ⟨0, rfl, .inl ⟨rfl, rfl⟩⟩
    · exact ⟨q + 1, rfl, .inr (.inl ⟨s, q, ⟨trivial, rfl⟩, rfl, hrun⟩)⟩

/-- The lookup of a key in a store, and then of nested keys in the value of its document. -/
structure Lookup where
  store : String
  first : Code
  keys : List Code
  first_closed : first.Closed
  keys_closed : ∀ key ∈ keys, key.Closed

namespace Lookup

def code (l : Lookup) : Code :=
  keyOfObject l.store l.first l.keys.length l.keys.flatten

/-- What is run before it is known whether there is a document. -/
def search (l : Lookup) : Code :=
  keyFilter l.first ++ [.findOne l.store .emptyObject]

/-- The way into the value of a document. -/
def descent (l : Lookup) : Code :=
  if l.keys = [] then [] else l.keys.flatten ++ [.getField l.keys.length]

/-- What stands behind the way into the value. -/
def failure (l : Lookup) : Code :=
  if l.keys = [] then [.instantiate .null]
  else [.raise "Key does not exist on global", .instantiate .null]

/-- The ways through a lookup, from the position behind the search on. -/
structure Flow (l : Lookup) (effects : Effects ρ) : Prop where
  searched : ∀ s u, l.code.Reaches effects s l.search.length u ↔
    ∃ w, (keyFilter l.first).Passes effects s w ∧ effects (.findOne l.store .emptyObject) w u
  /-- Without nested keys the null of the search is the result. -/
  missing : l.keys = [] → ∀ u, u.TopIsNull true → ∀ q t,
    (l.code.Runs effects (l.search.length, u) (q, t) ↔
      (q = l.search.length ∧ t = u) ∨ (q = l.search.length + 1 ∧ t = u.push (.bool true)) ∨
        (q = l.search.length + 3 ∧ t = u) ∨ (q = l.code.length ∧ t = u))
  /-- With nested keys there is nothing but the error. -/
  missing_nested : l.keys ≠ [] → ∀ u, u.TopIsNull true → ∀ q t,
    (l.code.Runs effects (l.search.length, u) (q, t) ↔
      (q = l.search.length ∧ t = u) ∨ (q = l.search.length + 1 ∧ t = u.push (.bool true)) ∨
        (q = l.search.length + 4 + l.descent.length ∧ t = u))
  error : l.keys ≠ [] → l.code[l.search.length + 4 + l.descent.length]? =
    some (.raise "Key does not exist on global")
  /-- In a document the nested keys lead on to the end. -/
  present : ∀ u, u.TopIsNull false → ∀ q t,
    (l.code.Runs effects (l.search.length, u) (q, t) ↔
      (q = l.search.length ∧ t = u) ∨ (q = l.search.length + 1 ∧ t = u.push (.bool false)) ∨
        (q = l.search.length + 2 ∧ t = u) ∨
        ∃ v, effects (.tryGetField "_val") u v ∧
          ((∃ r, r ≤ l.descent.length ∧ q = l.search.length + 3 + r ∧
              l.descent.Reaches effects v r t) ∨
            (q = l.code.length ∧ l.descent.Passes effects v t)))
  /-- The error and the null that stand before the end are left out then. -/
  spared : ∀ u, u.TopIsNull false → ∀ q t, l.code.Runs effects (l.search.length, u) (q, t) →
    q ≤ l.search.length + 3 + l.descent.length ∨ q = l.code.length
  descends : l.keys ≠ [] → ∀ s t, l.descent.Passes effects s t ↔
    ∃ u, InOrder effects l.keys s u ∧ effects (.getField l.keys.length) u t
  inside : ∀ s p t, l.code.Reaches effects s p t → p ≤ l.code.length
  anywhere : l.code.RunsAnywhere effects

variable (l : Lookup)

/-- From the value of a document one comes to the end. -/
def found : Code :=
  .tryGetField "_val" :: (l.descent ++ .jumpForward l.failure.length :: l.failure)

theorem closed_descent : l.descent.Closed := by
  rw [descent]
  split
  · exact closed_nil
  · exact (closed_flatten l.keys_closed).append (closed_effect rfl closed_nil)

theorem closed_search : l.search.Closed := by
  exact (closed_keyFilter l.first_closed).append (closed_effect rfl closed_nil)

theorem closed_failure : l.failure.Closed := by
  have hnull : Closed [.instantiate .null] := closed_effect rfl closed_nil
  rw [failure]
  split
  · exact hnull
  · exact closed_cons (by decide) hnull

theorem closed_jump : Closed (.jumpForward l.failure.length :: l.failure) :=
  closed_jumpToEnd l.closed_failure

theorem closed_found : l.found.Closed :=
  closed_effect rfl (l.closed_descent.append l.closed_jump)

theorem reaches_found : l.found.Reaches effects s p t ↔
    (p = 0 ∧ t = s) ∨ ∃ v, effects (.tryGetField "_val") s v ∧
      ((∃ r, r ≤ l.descent.length ∧ p = r + 1 ∧ l.descent.Reaches effects v r t) ∨
        (p = l.descent.length + l.failure.length + 2 ∧ l.descent.Passes effects v t)) := by
  rw [found, reaches_effect rfl (l.closed_descent.forward.append l.closed_jump.forward)]
  simp only [reaches_append l.closed_descent l.closed_jump.forward,
    reaches_jumpToEnd l.closed_failure.forward]
  refine or_congr Iff.rfl ⟨?_, ?_⟩
  · rintro ⟨v, _, heffect, rfl, ⟨hlt, hrun⟩ | ⟨_, _, hpasses, rfl, rfl | rfl, rfl⟩⟩
    · exact ⟨v, heffect, .inl ⟨_, Nat.le_of_lt hlt, rfl, hrun⟩⟩
    · exact ⟨v, heffect, .inl ⟨_, Nat.le_refl _, rfl, hpasses⟩⟩
    · exact ⟨v, heffect, .inr ⟨by omega, hpasses⟩⟩
  · rintro ⟨v, heffect, ⟨r, hle, rfl, hrun⟩ | ⟨rfl, hpasses⟩⟩
    · rcases Nat.eq_or_lt_of_le hle with rfl | hlt
      · exact ⟨v, _, heffect, rfl, .inr ⟨t, 0, hrun, rfl, .inl rfl, rfl⟩⟩
      · exact ⟨v, r, heffect, rfl, .inl ⟨hlt, hrun⟩⟩
    · exact ⟨v, l.descent.length + (l.failure.length + 1), heffect, by omega,
        .inr ⟨t, _, hpasses, rfl, .inr rfl, rfl⟩⟩

/-- The code behind the search. -/
def rest : Code :=
  .isNull :: .skipIf (l.descent.length + l.failure.length) :: l.found

theorem closed_rest : l.rest.Closed := by
  have hskip : Closed (.skipIf (l.descent.length + l.failure.length) :: l.found) := by
    refine closed_cons (fun move hmove => ?_) l.closed_found
    simp only [found, List.length_cons, List.length_append]
    rcases List.mem_pair.mp hmove with rfl | rfl <;> omega
  refine closed_cons (fun move hmove => ?_) hskip
  obtain rfl := List.mem_singleton.mp hmove
  omega

theorem code_eq : l.code = l.search ++ l.rest := by
  by_cases hkeys : l.keys = []
  · simp [code, keyOfObject, search, rest, found, descent, failure, hkeys]
  · have hcount : l.keys.length ≠ 0 := fun h => hkeys (List.eq_nil_of_length_eq_zero h)
    simp [code, keyOfObject, search, rest, found, descent, failure, hkeys, hcount]
    omega

theorem closed_code : l.code.Closed := by
  rw [code_eq]
  exact l.closed_search.append l.closed_rest

theorem length_code :
    l.code.length = l.search.length + (l.descent.length + l.failure.length + 4) := by
  rw [code_eq, rest, found]
  simp only [List.length_append, List.length_cons]
  omega

theorem runs_searched : l.code.Runs effects (l.search.length, s) (q, t) ↔
    ∃ p, q = l.search.length + p ∧ l.rest.Reaches effects s p t := by
  rw [code_eq]
  exact runs_append_right (p := 0) l.closed_rest.forward

theorem reaches_missing (hkeys : l.keys = []) (htop : s.TopIsNull true) :
    l.rest.Reaches effects s p t ↔
      (p = 0 ∧ t = s) ∨ (p = 1 ∧ t = s.push (.bool true)) ∨ (p = 3 ∧ t = s) ∨ (p = 5 ∧ t = s) := by
  have hrest : l.rest = .isNull :: .skipIf [Instruction.tryGetField "_val"].length ::
      ([.tryGetField "_val"] ++ .jumpForward l.failure.length :: l.failure) := by
    simp [rest, found, descent, failure, hkeys]
  have hlength : l.failure.length = 1 := by simp [failure, hkeys]
  have hvalue : Forward [.tryGetField "_val"] := forward_effect rfl forward_nil
  rw [hrest, reaches_null hvalue l.closed_jump.forward htop]
  simp only [reaches_jumpToEnd l.closed_failure.forward]
  rw [hlength]
  refine or_congr Iff.rfl (or_congr Iff.rfl ⟨?_, ?_⟩)
  · rintro ⟨_, rfl, rfl | rfl, rfl⟩
    · exact .inl ⟨rfl, rfl⟩
    · exact .inr ⟨rfl, rfl⟩
  · rintro (⟨rfl, rfl⟩ | ⟨rfl, rfl⟩)
    · exact ⟨0, rfl, .inl rfl, rfl⟩
    · exact ⟨2, rfl, .inr rfl, rfl⟩

theorem reaches_missing_nested (hkeys : l.keys ≠ []) (htop : s.TopIsNull true) :
    l.rest.Reaches effects s p t ↔
      (p = 0 ∧ t = s) ∨ (p = 1 ∧ t = s.push (.bool true)) ∨ (p = l.descent.length + 4 ∧ t = s) := by
  let skipped : Code := .tryGetField "_val" :: (l.descent ++ [.jumpForward l.failure.length])
  have hfailure : l.failure = [.raise "Key does not exist on global", .instantiate .null] :=
    if_neg hkeys
  have hrest : l.rest = .isNull :: .skipIf skipped.length :: (skipped ++ l.failure) := by
    simp [rest, found, skipped, hfailure]
  have hskipped : skipped.Forward :=
    forward_effect rfl (l.closed_descent.forward.append (forward_jumpForward _ forward_nil))
  have hlength : skipped.length = l.descent.length + 2 := by simp [skipped]
  rw [hrest, reaches_null hskipped l.closed_failure.forward htop, hfailure, hlength]
  simp only [reaches_raise]
  refine or_congr Iff.rfl (or_congr Iff.rfl ⟨?_, ?_⟩)
  · rintro ⟨_, rfl, rfl, rfl⟩
    exact ⟨rfl, rfl⟩
  · rintro ⟨rfl, rfl⟩
    exact ⟨0, rfl, rfl, rfl⟩

theorem reaches_present (htop : s.TopIsNull false) :
    l.rest.Reaches effects s p t ↔
      (p = 0 ∧ t = s) ∨ (p = 1 ∧ t = s.push (.bool false)) ∨ (p = 2 ∧ t = s) ∨
        ∃ v, effects (.tryGetField "_val") s v ∧
          ((∃ r, r ≤ l.descent.length ∧ p = 3 + r ∧ l.descent.Reaches effects v r t) ∨
            (p = l.descent.length + l.failure.length + 4 ∧ l.descent.Passes effects v t)) := by
  rw [rest, reaches_notNull l.closed_found.forward htop]
  simp only [reaches_found]
  refine or_congr Iff.rfl (or_congr Iff.rfl ⟨?_, ?_⟩)
  · rintro ⟨_, rfl, ⟨rfl, rfl⟩ | ⟨v, heffect, ⟨r, hle, rfl, hrun⟩ | ⟨rfl, hpasses⟩⟩⟩
    · exact .inl ⟨rfl, rfl⟩
    · exact .inr ⟨v, heffect, .inl ⟨r, hle, by omega, hrun⟩⟩
    · exact .inr ⟨v, heffect, .inr ⟨rfl, hpasses⟩⟩
  · rintro (⟨rfl, rfl⟩ | ⟨v, heffect, ⟨r, hle, rfl, hrun⟩ | ⟨rfl, hpasses⟩⟩)
    · exact ⟨0, rfl, .inl ⟨rfl, rfl⟩⟩
    · exact ⟨r + 1, by omega, .inr ⟨v, heffect, .inl ⟨r, hle, rfl, hrun⟩⟩⟩
    · exact ⟨_, rfl, .inr ⟨v, heffect, .inr ⟨rfl, hpasses⟩⟩⟩

theorem flow_searched : l.code.Reaches effects s l.search.length t ↔
    ∃ u, (keyFilter l.first).Passes effects s u ∧
      effects (.findOne l.store .emptyObject) u t := by
  have hahead : ∀ move ∈ Instruction.isNull.moves, 1 ≤ move := by decide
  have hfind : (Instruction.findOne l.store .emptyObject).isEffect = true := rfl
  rw [code_eq, rest, reaches_end l.closed_search (forward_skipIf _ l.closed_found.forward) hahead,
    search, passes_append (closed_keyFilter l.first_closed) (forward_effect rfl forward_nil)]
  simp only [passes_effect hfind]

theorem passes_descent (hkeys : l.keys ≠ []) : l.descent.Passes effects s t ↔
    ∃ u, InOrder effects l.keys s u ∧ effects (.getField l.keys.length) u t := by
  have hfield : (Instruction.getField l.keys.length).isEffect = true := rfl
  rw [descent, if_neg hkeys,
    passes_append (closed_flatten l.keys_closed) (forward_effect hfield forward_nil)]
  simp only [passes_flatten l.keys_closed, passes_effect hfield]

theorem runs_missing (hkeys : l.keys = []) (htop : s.TopIsNull true) :
    l.code.Runs effects (l.search.length, s) (q, t) ↔
      (q = l.search.length ∧ t = s) ∨ (q = l.search.length + 1 ∧ t = s.push (.bool true)) ∨
        (q = l.search.length + 3 ∧ t = s) ∨ (q = l.code.length ∧ t = s) := by
  have hlength : l.code.length = l.search.length + 5 := by
    rw [length_code, descent, failure, if_pos hkeys, if_pos hkeys]
    rfl
  rw [runs_searched, hlength]
  simp only [l.reaches_missing hkeys htop]
  constructor
  · rintro ⟨_, rfl, ⟨rfl, rfl⟩ | ⟨rfl, rfl⟩ | ⟨rfl, rfl⟩ | ⟨rfl, rfl⟩⟩
    · exact .inl ⟨rfl, rfl⟩
    · exact .inr (.inl ⟨rfl, rfl⟩)
    · exact .inr (.inr (.inl ⟨rfl, rfl⟩))
    · exact .inr (.inr (.inr ⟨rfl, rfl⟩))
  · rintro (⟨rfl, rfl⟩ | ⟨rfl, rfl⟩ | ⟨rfl, rfl⟩ | ⟨rfl, rfl⟩)
    · exact ⟨0, rfl, .inl ⟨rfl, rfl⟩⟩
    · exact ⟨1, rfl, .inr (.inl ⟨rfl, rfl⟩)⟩
    · exact ⟨3, rfl, .inr (.inr (.inl ⟨rfl, rfl⟩))⟩
    · exact ⟨5, rfl, .inr (.inr (.inr ⟨rfl, rfl⟩))⟩

theorem runs_missing_nested (hkeys : l.keys ≠ []) (htop : s.TopIsNull true) :
    l.code.Runs effects (l.search.length, s) (q, t) ↔
      (q = l.search.length ∧ t = s) ∨ (q = l.search.length + 1 ∧ t = s.push (.bool true)) ∨
        (q = l.search.length + 4 + l.descent.length ∧ t = s) := by
  rw [runs_searched]
  simp only [l.reaches_missing_nested hkeys htop]
  constructor
  · rintro ⟨_, rfl, ⟨rfl, rfl⟩ | ⟨rfl, rfl⟩ | ⟨rfl, rfl⟩⟩
    · exact .inl ⟨rfl, rfl⟩
    · exact .inr (.inl ⟨rfl, rfl⟩)
    · exact .inr (.inr ⟨by omega, rfl⟩)
  · rintro (⟨rfl, rfl⟩ | ⟨rfl, rfl⟩ | ⟨rfl, rfl⟩)
    · exact ⟨0, rfl, .inl ⟨rfl, rfl⟩⟩
    · exact ⟨1, rfl, .inr (.inl ⟨rfl, rfl⟩)⟩
    · exact ⟨l.descent.length + 4, by omega, .inr (.inr ⟨rfl, rfl⟩)⟩

theorem runs_present (htop : s.TopIsNull false) :
    l.code.Runs effects (l.search.length, s) (q, t) ↔
      (q = l.search.length ∧ t = s) ∨ (q = l.search.length + 1 ∧ t = s.push (.bool false)) ∨
        (q = l.search.length + 2 ∧ t = s) ∨
        ∃ v, effects (.tryGetField "_val") s v ∧
          ((∃ r, r ≤ l.descent.length ∧ q = l.search.length + 3 + r ∧
              l.descent.Reaches effects v r t) ∨
            (q = l.code.length ∧ l.descent.Passes effects v t)) := by
  rw [runs_searched, length_code]
  simp only [l.reaches_present htop]
  constructor
  · rintro ⟨_, rfl, ⟨rfl, rfl⟩ | ⟨rfl, rfl⟩ | ⟨rfl, rfl⟩ | ⟨v, heffect, ⟨r, hle, rfl, hrun⟩ |
      ⟨rfl, hpasses⟩⟩⟩
    · exact .inl ⟨rfl, rfl⟩
    · exact .inr (.inl ⟨rfl, rfl⟩)
    · exact .inr (.inr (.inl ⟨rfl, rfl⟩))
    · exact .inr (.inr (.inr ⟨v, heffect, .inl ⟨r, hle, by omega, hrun⟩⟩))
    · exact .inr (.inr (.inr ⟨v, heffect, .inr ⟨rfl, hpasses⟩⟩))
  · rintro (⟨rfl, rfl⟩ | ⟨rfl, rfl⟩ | ⟨rfl, rfl⟩ | ⟨v, heffect, ⟨r, hle, rfl, hrun⟩ |
      ⟨rfl, hpasses⟩⟩)
    · exact ⟨0, rfl, .inl ⟨rfl, rfl⟩⟩
    · exact ⟨1, rfl, .inr (.inl ⟨rfl, rfl⟩)⟩
    · exact ⟨2, rfl, .inr (.inr (.inl ⟨rfl, rfl⟩))⟩
    · exact ⟨3 + r, by omega, .inr (.inr (.inr ⟨v, heffect, .inl ⟨r, hle, rfl, hrun⟩⟩))⟩
    · exact ⟨_, rfl, .inr (.inr (.inr ⟨v, heffect, .inr ⟨rfl, hpasses⟩⟩))⟩

theorem getElem?_error (hkeys : l.keys ≠ []) :
    l.code[l.search.length + 4 + l.descent.length]? =
      some (.raise "Key does not exist on global") := by
  have hfailure : l.failure = [.raise "Key does not exist on global", .instantiate .null] :=
    if_neg hkeys
  have hcode : l.code = (l.search ++ .isNull :: .skipIf (l.descent.length + l.failure.length) ::
      .tryGetField "_val" :: (l.descent ++ [.jumpForward l.failure.length])) ++ l.failure := by
    simp [code_eq, rest, found]
  have hlength : (l.search ++ .isNull :: .skipIf (l.descent.length + l.failure.length) ::
      .tryGetField "_val" :: (l.descent ++ [Instruction.jumpForward l.failure.length])).length =
      l.search.length + 4 + l.descent.length := by
    simp only [List.length_append, List.length_cons, List.length_nil]
    omega
  rw [hcode, List.getElem?_append_right (Nat.le_of_eq hlength), hlength, Nat.sub_self, hfailure]
  rfl

theorem flow (l : Lookup) (effects : Effects ρ) : l.Flow effects where
  searched _ _ := l.flow_searched
  missing hkeys _ htop _ _ := l.runs_missing hkeys htop
  missing_nested hkeys _ htop _ _ := l.runs_missing_nested hkeys htop
  error := l.getElem?_error
  present _ htop _ _ := l.runs_present htop
  spared u htop q t hrun := by
    rcases (l.runs_present htop).mp hrun with ⟨rfl, -⟩ | ⟨rfl, -⟩ | ⟨rfl, -⟩ |
      ⟨_, -, ⟨r, hle, rfl, -⟩ | ⟨rfl, -⟩⟩
    · exact .inl (by omega)
    · exact .inl (by omega)
    · exact .inl (by omega)
    · exact .inl (by omega)
    · exact .inr rfl
  descends hkeys _ _ := l.passes_descent hkeys
  inside _ _ _ hrun := l.closed_code.le_of_reaches hrun
  anywhere := l.closed_code.forward.runsAnywhere

end Lookup

/-- Code that writes no store. -/
def ReadOnly (code : Code) : Prop :=
  ∀ access ∈ code.accesses, ∃ store, access = .read store

/-- An update of a store, after the stages that prepare it. -/
structure Update where
  store : String
  upsert : Bool
  stages : List Code
  stages_closed : ∀ stage ∈ stages, stage.Closed
  stages_readOnly : ∀ stage ∈ stages, stage.ReadOnly

/-- What follows an update. -/
def verdict : Code :=
  [.isNull, .skipIf 2, .popStack, .jumpForward 1, .raise "Nested key does not exist"]

namespace Update

def code (c : Update) : Code :=
  c.stages.flatten ++ .updateOne c.store c.upsert :: verdict

/-- The position of the update itself. -/
def pos (c : Update) : Nat :=
  c.stages.flatten.length

/-- The ways through an update. -/
structure Flow (c : Update) (effects : Effects ρ) : Prop where
  /-- Of updates there is only this one. -/
  only : ∀ p store upsert, c.code[p]? = some (.updateOne store upsert) ↔
    p = c.pos ∧ store = c.store ∧ upsert = c.upsert
  /-- All stages are run before. -/
  updates : ∀ s t, c.code.Reaches effects s c.pos t ↔ InOrder effects c.stages s t
  error : c.code[c.pos + 5]? = some (.raise "Nested key does not exist")
  /-- The error is come to exactly if the update has left null. -/
  fails : ∀ s t, c.code.Reaches effects s (c.pos + 5) t ↔
    ∃ u, InOrder effects c.stages s u ∧ effects (.updateOne c.store c.upsert) u t ∧ t.TopIsNull true
  leaves : ∀ s t, c.code.Passes effects s t ↔
    ∃ u v, InOrder effects c.stages s u ∧ effects (.updateOne c.store c.upsert) u v ∧
      v.TopIsNull false ∧ effects .popStack v t
  inside : ∀ s p t, c.code.Reaches effects s p t → p ≤ c.code.length
  anywhere : c.code.RunsAnywhere effects

variable (c : Update)

theorem closed_verdict : verdict.Closed := by
  have hraise : Closed [.raise "Nested key does not exist"] := closed_cons (by decide) closed_nil
  have hpop : Closed (.popStack :: .jumpForward 1 :: [.raise "Nested key does not exist"]) :=
    closed_effect rfl (closed_jumpToEnd hraise)
  exact closed_cons (by decide) (closed_cons (by decide) hpop)

theorem closed_stages : Closed c.stages.flatten :=
  closed_flatten c.stages_closed

theorem closed_code : c.code.Closed :=
  c.closed_stages.append (closed_effect rfl closed_verdict)

theorem reaches_verdict_true (htop : s.TopIsNull true) :
    verdict.Reaches effects s p t ↔
      (p = 0 ∧ t = s) ∨ (p = 1 ∧ t = s.push (.bool true)) ∨ (p = 4 ∧ t = s) := by
  have hskipped : Forward [.popStack, .jumpForward 1] :=
    forward_effect rfl (forward_jumpForward 1 forward_nil)
  have hraise : Forward [.raise "Nested key does not exist"] := forward_cons (by decide) forward_nil
  refine (reaches_null hskipped hraise htop).trans ?_
  simp only [reaches_raise]
  refine or_congr Iff.rfl (or_congr Iff.rfl ⟨?_, ?_⟩)
  · rintro ⟨_, rfl, rfl, rfl⟩
    exact ⟨rfl, rfl⟩
  · rintro ⟨rfl, rfl⟩
    exact ⟨0, rfl, rfl, rfl⟩

theorem reaches_verdict_false (htop : s.TopIsNull false) :
    verdict.Reaches effects s p t ↔
      (p = 0 ∧ t = s) ∨ (p = 1 ∧ t = s.push (.bool false)) ∨ (p = 2 ∧ t = s) ∨
        (effects .popStack s t ∧ (p = 3 ∨ p = 5)) := by
  have hraise : Forward [.raise "Nested key does not exist"] := forward_cons (by decide) forward_nil
  have hjump : Forward (.jumpForward 1 :: [.raise "Nested key does not exist"]) :=
    forward_jumpForward 1 hraise
  have hpop : Forward (.popStack :: .jumpForward 1 :: [.raise "Nested key does not exist"]) :=
    forward_effect rfl hjump
  have hend : ∀ {v : State ρ} {q : Nat},
      Reaches effects (.jumpForward 1 :: [.raise "Nested key does not exist"]) v q t ↔
        (q = 0 ∨ q = 2) ∧ t = v := fun {v q} => @reaches_jumpToEnd ρ effects _ v t q hraise
  have hpopStack : Instruction.popStack.isEffect = true := rfl
  rw [verdict, reaches_notNull hpop htop]
  simp only [reaches_effect hpopStack hjump, hend]
  refine or_congr Iff.rfl (or_congr Iff.rfl ⟨?_, ?_⟩)
  · rintro ⟨_, rfl, ⟨rfl, rfl⟩ | ⟨_, _, heffect, rfl, rfl | rfl, rfl⟩⟩
    · exact .inl ⟨rfl, rfl⟩
    · exact .inr ⟨heffect, .inl rfl⟩
    · exact .inr ⟨heffect, .inr rfl⟩
  · rintro (⟨rfl, rfl⟩ | ⟨heffect, rfl | rfl⟩)
    · exact ⟨0, rfl, .inl ⟨rfl, rfl⟩⟩
    · exact ⟨1, rfl, .inr ⟨t, 0, heffect, rfl, .inl rfl, rfl⟩⟩
    · exact ⟨3, rfl, .inr ⟨t, 2, heffect, rfl, .inr rfl, rfl⟩⟩

theorem exists_topIsNull (h : verdict.Reaches effects s (p + 1) t) :
    ∃ value, s.TopIsNull value := by
  have hmoves : Instruction.isNull.moves = [1] := rfl
  have hraise : Forward [.raise "Nested key does not exist"] := forward_cons (by decide) forward_nil
  have hskip : Forward [.skipIf 2, .popStack, .jumpForward 1, .raise "Nested key does not exist"] :=
    forward_skipIf 2 (forward_effect rfl (forward_jumpForward 1 hraise))
  rcases (reaches_cons_step hmoves hskip).mp h with ⟨hzero, -⟩ | ⟨_, _, ⟨value, htop, -⟩, -⟩
  · cases hzero
  · exact ⟨value, htop⟩

theorem reaches_failure : verdict.Reaches effects s 4 t ↔ s.TopIsNull true ∧ t = s := by
  constructor
  · intro h
    obtain ⟨_ | _, htop⟩ := exists_topIsNull h
    · rcases (reaches_verdict_false htop).mp h with ⟨hp, -⟩ | ⟨hp, -⟩ | ⟨hp, -⟩ | ⟨-, hp | hp⟩ <;>
        cases hp
    · rcases (reaches_verdict_true htop).mp h with ⟨hp, -⟩ | ⟨hp, -⟩ | ⟨-, rfl⟩
      · cases hp
      · cases hp
      · exact ⟨htop, rfl⟩
  · rintro ⟨htop, rfl⟩
    exact (reaches_verdict_true htop).mpr (.inr (.inr ⟨rfl, rfl⟩))

theorem passes_verdict :
    verdict.Passes effects s t ↔ s.TopIsNull false ∧ effects .popStack s t := by
  constructor
  · intro h
    obtain ⟨_ | _, htop⟩ := exists_topIsNull h
    · rcases (reaches_verdict_false htop).mp h with ⟨hp, -⟩ | ⟨hp, -⟩ | ⟨hp, -⟩ | ⟨heffect, -⟩
      · cases hp
      · cases hp
      · cases hp
      · exact ⟨htop, heffect⟩
    · rcases (reaches_verdict_true htop).mp h with ⟨hp, -⟩ | ⟨hp, -⟩ | ⟨hp, -⟩ <;> cases hp
  · rintro ⟨htop, heffect⟩
    exact (reaches_verdict_false htop).mpr (.inr (.inr (.inr ⟨heffect, .inr rfl⟩)))

theorem flow_updates :
    c.code.Reaches effects s c.pos t ↔ InOrder effects c.stages s t := by
  rw [code, pos, reaches_end c.closed_stages closed_verdict.forward
    (Instruction.ahead_of_isEffect rfl), passes_flatten c.stages_closed]

theorem reaches_updated : c.code.Reaches effects s (c.pos + (p + 1)) t ↔
    ∃ u v, InOrder effects c.stages s u ∧ effects (.updateOne c.store c.upsert) u v ∧
      verdict.Reaches effects v p t := by
  have hupdate : (Instruction.updateOne c.store c.upsert).isEffect = true := rfl
  rw [code, pos,
    reaches_append_right c.closed_stages (forward_effect hupdate closed_verdict.forward)]
  simp only [reaches_effect hupdate closed_verdict.forward, passes_flatten c.stages_closed]
  constructor
  · rintro ⟨u, hstages, ⟨hzero, -⟩ | ⟨v, q, heffect, hq, hrun⟩⟩
    · cases hzero
    · obtain rfl : p = q := Nat.succ.inj hq
      exact ⟨u, v, hstages, heffect, hrun⟩
  · rintro ⟨u, v, hstages, heffect, hrun⟩
    exact ⟨u, hstages, .inr ⟨v, p, heffect, rfl, hrun⟩⟩

theorem not_mem_stages (store : String) (upsert : Bool) :
    .updateOne store upsert ∉ c.stages.flatten := by
  intro h
  obtain ⟨stage, hstage, hmem⟩ := List.mem_flatten.mp h
  have haccess : Access.write store ∈ accesses stage := List.mem_filterMap.mpr ⟨_, hmem, rfl⟩
  obtain ⟨_, hread⟩ := c.stages_readOnly stage hstage _ haccess
  cases hread

theorem getElem?_eq_updateOne {store : String} {upsert : Bool} :
    c.code[p]? = some (.updateOne store upsert) ↔
      p = c.pos ∧ store = c.store ∧ upsert = c.upsert := by
  rw [code, pos]
  constructor
  · intro h
    rcases Nat.lt_or_ge p c.stages.flatten.length with hlt | hge
    · rw [List.getElem?_append_left hlt] at h
      exact absurd (List.mem_of_getElem? h) (c.not_mem_stages store upsert)
    · obtain ⟨q, rfl⟩ := Nat.exists_eq_add_of_le hge
      rw [List.getElem?_append_right hge, Nat.add_sub_cancel_left] at h
      cases q with
      | zero =>
          cases h
          exact ⟨rfl, rfl, rfl⟩
      | succ q =>
          have hmem : .updateOne store upsert ∈ verdict := List.mem_of_getElem? h
          simp [verdict, Instruction.jumpForward] at hmem
  · rintro ⟨rfl, rfl, rfl⟩
    rw [List.getElem?_append_right (Nat.le_refl _), Nat.sub_self]
    rfl

theorem flow (c : Update) (effects : Effects ρ) : c.Flow effects where
  only _ _ _ := c.getElem?_eq_updateOne
  updates _ _ := c.flow_updates
  error := by
    rw [code, pos, List.getElem?_append_right (Nat.le_add_right _ _), Nat.add_sub_cancel_left]
    rfl
  fails s t := by
    rw [c.reaches_updated]
    simp only [reaches_failure]
    constructor
    · rintro ⟨u, v, hstages, heffect, htop, rfl⟩
      exact ⟨u, hstages, heffect, htop⟩
    · rintro ⟨u, hstages, heffect, htop⟩
      exact ⟨u, t, hstages, heffect, htop, rfl⟩
  leaves s t := by
    have hlength : c.code.length = c.pos + (verdict.length + 1) := by
      rw [code, List.length_append, List.length_cons, pos]
    rw [Passes, hlength, c.reaches_updated]
    exact exists_congr fun _ => exists_congr fun _ => and_congr_right fun _ =>
      and_congr_right fun _ => passes_verdict
  inside _ _ _ hrun := c.closed_code.le_of_reaches hrun
  anywhere := c.closed_code.forward.runsAnywhere

end Update

/-- Code made of stages that write no store, among which are the given parts in their order. -/
def Staged (parts : List Code) (code : Code) : Prop :=
  ∃ stages : List Code, code = stages.flatten ∧ parts.Sublist stages ∧
    ∀ stage ∈ stages, stage.Closed ∧ stage.ReadOnly

variable {parts others : List Code} {code first rest values : Code}

theorem Staged.append (h : Staged parts code) (hmore : Staged others more) :
    Staged (parts ++ others) (code ++ more) := by
  obtain ⟨stages, rfl, hparts, hstages⟩ := h
  obtain ⟨later, rfl, hothers, hlater⟩ := hmore
  refine ⟨stages ++ later, List.flatten_append.symm, hparts.append hothers, fun stage hstage => ?_⟩
  rcases List.mem_append.mp hstage with hstage | hstage
  · exact hstages stage hstage
  · exact hlater stage hstage

theorem staged_part (hclosed : code.Closed) (hread : code.ReadOnly) : Staged [code] code := by
  refine ⟨[code], by simp, List.Sublist.refl _, fun stage hstage => ?_⟩
  obtain rfl := List.mem_singleton.mp hstage
  exact ⟨hclosed, hread⟩

/-- Whether an instruction neither decides where to go on nor accesses a store. -/
def isPreparation (instruction : Instruction) : Bool :=
  instruction.isEffect && instruction.access?.isNone

theorem staged_preparation (h : code.all isPreparation = true) : Staged [] code := by
  have hclosed : code.Closed ∧ code.accesses = [] := by
    induction code with
    | nil => exact ⟨closed_nil, rfl⟩
    | cons instruction rest ih =>
        simp only [List.all_cons, isPreparation, Bool.and_eq_true,
          Option.isNone_iff_eq_none] at h ih
        obtain ⟨hrest, hnone⟩ := ih h.2
        refine ⟨closed_effect h.1.1 hrest, ?_⟩
        rw [accesses_cons, h.1.2, hnone]
        rfl
  refine ⟨[code], by simp, List.nil_sublist _, fun stage hstage => ?_⟩
  obtain rfl := List.mem_singleton.mp hstage
  refine ⟨hclosed.1, fun access haccess => ?_⟩
  rw [hclosed.2] at haccess
  cases haccess

theorem Staged.between (h : Staged parts code) {before after : Code}
    (hbefore : before.all isPreparation = true) (hafter : after.all isPreparation = true) :
    Staged parts (before ++ code ++ after) := by
  have hstaged := ((staged_preparation hbefore).append h).append (staged_preparation hafter)
  rwa [List.nil_append, List.append_nil] at hstaged

theorem staged_keyFilter (hfirst : Staged [first] first) : Staged [first] (keyFilter first) :=
  @Staged.between _ _ hfirst [.instantiate (.entry "_key" .emptyObject), text "_key"] [.setField 1]
    rfl rfl

/-- The code of an update: nested keys, values and the first key, with preparations around them. -/
def IsUpdate (store : String) (upsert : Bool) (rest values first code : Code) : Prop :=
  ∃ a b c d : Code, (a ++ b ++ c ++ d).all isPreparation = true ∧
    code = ((a ++ rest ++ b) ++ (c ++ values ++ d) ++ keyFilter first) ++
      .updateOne store upsert :: verdict

theorem isUpdate_setKey (store : String) (values first : Code) {count : Nat}
    (hcount : count = 0 → rest = []) :
    IsUpdate store (count = 0) rest values first (setKey store first count rest values) := by
  by_cases hzero : count = 0
  · refine ⟨[], [], [.instantiate (.entry "$set" (.entry "_val" .emptyObject)), text "$set",
      text "_val"], [.setField 2], rfl, ?_⟩
    simp [setKey, updateDocument, verdict, hzero, hcount hzero]
  · refine ⟨[.instantiate (.entry "$set" .emptyObject), text "$set", text "_val"],
      [.concatStrings (count + 1) "."], [], [.setField 2], rfl, ?_⟩
    simp [setKey, nestedPath, updateDocument, verdict, hzero]

theorem isUpdate_pushAtKey (store : String) (values first : Code) {count : Nat}
    (hcount : count = 0 → rest = []) :
    IsUpdate store (count = 0) rest values first (pushAtKey store first count rest values) := by
  by_cases hzero : count = 0
  · refine ⟨[], [], [.instantiate (.entry "$push" (.entry "_val" .emptyObject)), text "$push",
      text "_val", text "$each"], [.setField 3], rfl, ?_⟩
    simp [pushAtKey, updateDocument, verdict, hzero, hcount hzero]
  · refine ⟨[.instantiate (.entry "$push" .emptyObject), text "$push", text "_val"],
      [.concatStrings (count + 1) "."], [.instantiate .emptyObject, text "$each"],
      [.setField 1, .setField 2], rfl, ?_⟩
    simp [pushAtKey, nestedPath, eachDocument, updateDocument, verdict, hzero]

theorem IsUpdate.exists_update {store : String} {upsert : Bool}
    (h : IsUpdate store upsert rest values first code) (hrest : Staged parts rest)
    (hvalues : Staged others values) (hfirst : Staged [first] first) :
    ∃ c : Update, c.store = store ∧ c.upsert = upsert ∧ c.code = code ∧
      (parts ++ others ++ [first]).Sublist c.stages := by
  obtain ⟨a, b, c, d, hall, rfl⟩ := h
  simp only [List.all_append, Bool.and_eq_true] at hall
  obtain ⟨⟨⟨ha, hb⟩, hc⟩, hd⟩ := hall
  have hstaged : Staged (parts ++ others ++ [first])
      ((a ++ rest ++ b) ++ (c ++ values ++ d) ++ keyFilter first) :=
    ((hrest.between ha hb).append (hvalues.between hc hd)).append (staged_keyFilter hfirst)
  obtain ⟨stages, hbefore, hparts, hstages⟩ := hstaged
  refine ⟨⟨store, upsert, stages, fun stage hstage => (hstages stage hstage).1,
    fun stage hstage => (hstages stage hstage).2⟩, rfl, rfl, ?_, hparts⟩
  rw [hbefore]
  rfl

end Code

namespace Expr

variable {slots : Slots} {es : List Expr} {code : Code}

theorem closed_of_compile {e : Expr} (h : e.compile slots = .ok code) : code.Closed :=
  (shifts_compile slots e h).closed

theorem staged_of_compile {e : Expr} (h : e.compile slots = .ok code) :
    Code.Staged [code] code :=
  Code.staged_part (closed_of_compile h) fun _ haccess =>
    Source.exists_eq_read ((readsFrom_compile slots e h).mem_iff.mp haccess)

/-- Each expression has its code. -/
def Codes (slots : Slots) : List Expr → List Code → Prop :=
  List.Forall₂ fun e code => e.compile slots = .ok code

theorem exists_codes_of_compileList (h : compileList slots es = .ok code) :
    ∃ codes, Codes slots es codes ∧ code = codes.flatten ∧ Code.Staged codes code := by
  induction es generalizing code with
  | nil =>
      obtain rfl := Except.ok.inj h
      exact ⟨[], .nil, rfl, Code.staged_preparation rfl⟩
  | cons e rest ih =>
      simp only [compileList, bind_eq_ok, pure_eq_ok] at h
      obtain ⟨first, hfirst, more, hmore, rfl⟩ := h
      obtain ⟨codes, hcodes, hflatten, hstaged⟩ := ih hmore
      refine ⟨first :: codes, .cons hfirst hcodes, ?_, (staged_of_compile hfirst).append hstaged⟩
      rw [List.flatten_cons, hflatten]

theorem exists_codes_of_compilePushes (h : compilePushes slots es = .ok code) :
    ∃ codes, Codes slots es codes ∧ Code.Staged codes code := by
  induction es generalizing code with
  | nil =>
      obtain rfl := Except.ok.inj h
      exact ⟨[], .nil, Code.staged_preparation rfl⟩
  | cons e rest ih =>
      simp only [compilePushes, bind_eq_ok, pure_eq_ok] at h
      obtain ⟨first, hfirst, more, hmore, rfl⟩ := h
      obtain ⟨codes, hcodes, hstaged⟩ := ih hmore
      have hpush : Code.Staged [] [.arrayPush] := Code.staged_preparation rfl
      exact ⟨first :: codes, .cons hfirst hcodes,
        (staged_of_compile hfirst).append (hpush.append hstaged)⟩

theorem exists_codes_of_compileArray (h : compileArray slots es = .ok code) :
    ∃ codes, Codes slots es codes ∧ Code.Staged codes code := by
  simp only [compileArray, bind_eq_ok, pure_eq_ok] at h
  obtain ⟨pushes, hpushes, rfl⟩ := h
  obtain ⟨codes, hcodes, hstaged⟩ := exists_codes_of_compilePushes hpushes
  have hempty : Code.Staged [] [.instantiate .emptyArray] := Code.staged_preparation rfl
  exact ⟨codes, hcodes, hempty.append hstaged⟩

end Expr

namespace Code

/-- The parts of a lookup are the code of its keys. -/
structure Lookup.Compiles (l : Lookup) (slots : Slots) (store : String) (first : Expr)
    (rest : List Expr) : Prop where
  store : l.store = store
  first : first.compile slots = .ok l.first
  keys : Expr.Codes slots rest l.keys

/-- An update makes a missing document exactly if there are no nested keys. Its stages hold the code
of the nested keys, of the values and of the first key. -/
structure Update.Compiles (c : Update) (slots : Slots) (store : String) (first : Expr)
    (rest values : List Expr) : Prop where
  store : c.store = store
  upsert : c.upsert = true ↔ rest = []
  stages : ∃ codes, Expr.Codes slots (rest ++ values ++ [first]) codes ∧ codes.Sublist c.stages

theorem exists_lookup_of_compile {slots : Slots} {store : String} {first : Expr}
    {rest : List Expr} {code : Code}
    (h : (Expr.keyOfObject store (first :: rest)).compile slots = .ok code) :
    ∃ l : Lookup, l.Compiles slots store first rest ∧ l.code = code := by
  simp only [Expr.compile, bind_eq_ok, pure_eq_ok] at h
  obtain ⟨nested, hnested, key, hkey, rfl⟩ := h
  obtain ⟨codes, hcodes, rfl, -⟩ := Expr.exists_codes_of_compileList hnested
  refine ⟨⟨store, key, codes, Expr.closed_of_compile hkey, fun code hcode => ?_⟩,
    ⟨rfl, hkey, hcodes⟩, ?_⟩
  · obtain ⟨e, -, he⟩ := exists_of_forall₂ hcodes code hcode
    exact Expr.closed_of_compile he
  · rw [Lookup.code, ← hcodes.length_eq]

theorem IsUpdate.exists_compiles {slots : Slots} {store : String} {first : Expr}
    {rest values : List Expr} {nested inputs key code : Code}
    (h : IsUpdate store (rest.length = 0) nested inputs key code)
    (hrest : Expr.compileList slots rest = .ok nested)
    (hvalues : ∃ codes, Expr.Codes slots values codes ∧ Staged codes inputs)
    (hfirst : first.compile slots = .ok key) :
    ∃ c : Update, c.Compiles slots store first rest values ∧ c.code = code := by
  obtain ⟨keys, hkeys, -, hnested⟩ := Expr.exists_codes_of_compileList hrest
  obtain ⟨codes, hcodes, hinputs⟩ := hvalues
  obtain ⟨c, hstore, hupsert, hcode, hstages⟩ :=
    h.exists_update hnested hinputs (Expr.staged_of_compile hfirst)
  refine ⟨c, ⟨hstore, ?_, _, List.rel_append (List.rel_append hkeys hcodes) (.cons hfirst .nil),
    hstages⟩, hcode⟩
  rw [hupsert, decide_eq_true_eq, List.length_eq_zero_iff]

theorem exists_update_of_setKey {slots after : Slots} {store : String} {first value : Expr}
    {rest : List Expr} {code : Code}
    (h : (Statement.setKey store (first :: rest) value).compile slots = .ok (code, after)) :
    ∃ c : Update, c.Compiles slots store first rest [value] ∧ c.code = code := by
  simp only [Statement.compile, bind_eq_ok, pure_eq_ok, Prod.mk.injEq] at h
  obtain ⟨nested, hnested, input, hinput, key, hkey, rfl, -⟩ := h
  have hcode := isUpdate_setKey store input key (Expr.eq_nil_of_compileList hnested)
  exact hcode.exists_compiles hnested
    ⟨[input], .cons hinput .nil, Expr.staged_of_compile hinput⟩ hkey

theorem exists_update_of_pushAtKey {slots after : Slots} {store : String} {first : Expr}
    {rest values : List Expr} {code : Code}
    (h : (Statement.pushAtKey store (first :: rest) values).compile slots = .ok (code, after)) :
    ∃ c : Update, c.Compiles slots store first rest values ∧ c.code = code := by
  simp only [Statement.compile, bind_eq_ok, pure_eq_ok, Prod.mk.injEq] at h
  obtain ⟨nested, hnested, inputs, hinputs, key, hkey, rfl, -⟩ := h
  have hcode := isUpdate_pushAtKey store inputs key (Expr.eq_nil_of_compileList hnested)
  exact hcode.exists_compiles hnested (Expr.exists_codes_of_compileArray hinputs) hkey

/-- Accesses to stores take the right way, whatever their keys and values are and whatever the
machine does for them. A lookup that finds no document gives null or, with nested keys, the error,
and comes to no nested key. One that finds a document runs the nested keys in order to the end. An
update comes after all keys and values, and ends in an error exactly if it has left null. -/
theorem access_flow {slots : Slots} {store : String} {first : Expr} {rest : List Expr}
    {code : Code} :
    ((Expr.keyOfObject store (first :: rest)).compile slots = .ok code →
      ∃ l : Lookup, l.Compiles slots store first rest ∧ l.code = code ∧
        ∀ (ρ : Type) (effects : Effects ρ), l.Flow effects) ∧
    (∀ value after, (Statement.setKey store (first :: rest) value).compile slots =
        .ok (code, after) →
      ∃ c : Update, c.Compiles slots store first rest [value] ∧ c.code = code ∧
        ∀ (ρ : Type) (effects : Effects ρ), c.Flow effects) ∧
    ∀ values after, (Statement.pushAtKey store (first :: rest) values).compile slots =
        .ok (code, after) →
      ∃ c : Update, c.Compiles slots store first rest values ∧ c.code = code ∧
        ∀ (ρ : Type) (effects : Effects ρ), c.Flow effects := by
  refine ⟨fun h => ?_, fun value after h => ?_, fun values after h => ?_⟩
  · obtain ⟨l, hcompiles, hcode⟩ := exists_lookup_of_compile h
    exact ⟨l, hcompiles, hcode, fun _ effects => l.flow effects⟩
  · obtain ⟨c, hcompiles, hcode⟩ := exists_update_of_setKey h
    exact ⟨c, hcompiles, hcode, fun _ effects => c.flow effects⟩
  · obtain ⟨c, hcompiles, hcode⟩ := exists_update_of_pushAtKey h
    exact ⟨c, hcompiles, hcode, fun _ effects => c.flow effects⟩

/-- Keys that are looked up themselves. -/
def currentUser : Expr := .keyOfObject "sessions" [.string "current", .string "user"]

theorem access_flow_currentUser :
    (∃ l : Lookup,
      (Expr.keyOfObject "users" [currentUser, currentUser, .string "name"]).compile Scope.empty =
        .ok l.code ∧ l.keys.length = 2 ∧ ∀ (ρ : Type) (effects : Effects ρ), l.Flow effects) ∧
    (∃ (c : Update) (after : Slots),
      (Statement.setKey "users" [currentUser] (.keysOfObject "log")).compile Scope.empty =
        .ok (c.code, after) ∧ c.upsert = true ∧
        ∀ (ρ : Type) (effects : Effects ρ), c.Flow effects) ∧
    ∃ (c : Update) (after : Slots),
      (Statement.pushAtKey "users" [currentUser, .string "seen"] [currentUser]).compile
        Scope.empty = .ok (c.code, after) ∧ c.upsert ≠ true ∧
        ∀ (ρ : Type) (effects : Effects ρ), c.Flow effects := by
  refine ⟨?_, ?_, ?_⟩
  · obtain ⟨code, hcode⟩ : ∃ code, (Expr.keyOfObject "users"
        [currentUser, currentUser, .string "name"]).compile Scope.empty = .ok code := ⟨_, rfl⟩
    obtain ⟨l, hcompiles, rfl, hflow⟩ := access_flow.1 hcode
    exact ⟨l, hcode, hcompiles.keys.length_eq.symm, hflow⟩
  · obtain ⟨⟨code, after⟩, hcode⟩ : ∃ result, (Statement.setKey "users" [currentUser]
        (.keysOfObject "log")).compile Scope.empty = .ok result := ⟨_, rfl⟩
    obtain ⟨c, hcompiles, rfl, hflow⟩ := access_flow.2.1 _ _ hcode
    exact ⟨c, after, hcode, hcompiles.upsert.mpr rfl, hflow⟩
  · obtain ⟨⟨code, after⟩, hcode⟩ : ∃ result, (Statement.pushAtKey "users"
        [currentUser, .string "seen"] [currentUser]).compile Scope.empty = .ok result := ⟨_, rfl⟩
    obtain ⟨c, hcompiles, rfl, hflow⟩ := access_flow.2.2 _ _ hcode
    refine ⟨c, after, hcode, fun hupsert => ?_, hflow⟩
    cases hcompiles.upsert.mp hupsert

end Code

end StoredProcedure
