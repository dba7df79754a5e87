import Mathlib.Data.List.Forall2
import StoredProcedure.Proofs.Rewriting
import StoredProcedure.Proofs.Scope

/-!
Functions that are alike: the same tree up to the names of variables, where references that
correspond refer to variables that correspond.

The names of the variables in scope are paired, the last declared first. A name refers to the first
variable of that name in the list, so two names refer to variables that correspond if they are found
at the same place of the list of pairs, each on its side, or if neither is found.
-/

namespace StoredProcedure

/-- Two names refer to variables that correspond, or neither refers to a variable. -/
inductive SameVariable : List (String × String) → String → String → Prop
  | unbound {x y : String} : SameVariable [] x y
  | found {x y : String} {vars : List (String × String)} : SameVariable ((x, y) :: vars) x y
  | passed {x y other other' : String} {vars : List (String × String)} (hx : other ≠ x)
      (hy : other' ≠ y) (h : SameVariable vars x y) : SameVariable ((other, other') :: vars) x y

/-- The same expression up to the names of variables: a reference to a variable that corresponds, or
the same node with children that are alike. -/
inductive Expr.Alike (vars : List (String × String)) : Expr → Expr → Prop
  | saved {x y : String} (h : SameVariable vars x y) : Alike vars (.saved x) (.saved y)
  | node {e : Expr} {children : List Expr} (hself : e.kind ≠ .saved)
      (hchildren : List.Forall₂ (Alike vars) e.children children) :
      Alike vars e (e.withChildren children)

/-- Lists of expressions that are alike one by one. -/
abbrev Expr.AlikeList (vars : List (String × String)) : List Expr → List Expr → Prop :=
  List.Forall₂ (Expr.Alike vars)

theorem Expr.Alike.of_children {vars : List (String × String)} {e e' : Expr}
    (hself : e.kind ≠ .saved) (h : Expr.AlikeList vars e.children e'.children)
    (hsame : e.withChildren e'.children = e') : e.Alike vars e' := by
  rw [← hsame]
  exact .node hself h

/-- What holds of references to variables that correspond, and of a node if it holds of its
children, holds of expressions that are alike. -/
theorem Expr.Alike.on_children {vars : List (String × String)} {S : Expr → Expr → Prop}
    (saved : ∀ {x y : String}, SameVariable vars x y → S (.saved x) (.saved y))
    (node : ∀ {e : Expr} {es : List Expr}, e.kind ≠ .saved → List.Forall₂ S e.children es →
      S e (e.withChildren es))
    {e e' : Expr} (h : e.Alike vars e') : S e e' := by
  induction e using Expr.induction_on_children generalizing e' with
  | node e ih =>
      cases h with
      | saved hname => exact saved hname
      | node hself hchildren =>
          have hboth := (List.forall₂_and_left _ _).mpr ⟨ih, hchildren⟩
          exact node hself (hboth.imp fun _ _ h => h.1 h.2)

inductive Edit.Alike (vars : List (String × String)) : Edit → Edit → Prop
  | push {values values' : List Expr} (h : Expr.AlikeList vars values values') :
      Alike vars (.push values) (.push values')
  | deleteField : Alike vars .deleteField .deleteField
  | set {value value' : Expr} (h : value.Alike vars value') : Alike vars (.set value) (.set value')

inductive Guard.Alike (vars : List (String × String)) : Guard → Guard → Prop
  | when {condition condition' : Expr} (h : condition.Alike vars condition') :
      Alike vars (.when condition) (.when condition')
  | otherwise : Alike vars .otherwise .otherwise
  | lastly : Alike vars .lastly .lastly

inductive Target.Alike (vars : List (String × String)) : Target → Target → Prop
  | saved {x y : String} (h : SameVariable vars x y) : Alike vars (.saved x) (.saved y)
  | globalObject {name : String} : Alike vars (.globalObject name) (.globalObject name)

namespace Statement

mutual
inductive Alike : List (String × String) → Statement → Statement → Prop
  | ret {vars : List (String × String)} {value value' : Option Expr}
      (h : Expr.AlikeList vars value.toList value'.toList) : Alike vars (.ret value) (.ret value')
  | save {vars : List (String × String)} {x y : String} {value value' : Expr}
      (h : value.Alike vars value') : Alike vars (.save x value) (.save y value')
  | update {vars : List (String × String)} {target target' : Target} {level level' : List Expr}
      {edit edit' : Edit} (htarget : target.Alike vars target')
      (hlevel : Expr.AlikeList vars level level') (hedit : edit.Alike vars edit') :
      Alike vars (.update target level edit) (.update target' level' edit')
  | choice {vars : List (String × String)} {branches branches' : List (Guard × List Statement)}
      (h : AlikeBranches vars branches branches') :
      Alike vars (.choice branches) (.choice branches')
  | forEach {vars : List (String × String)} {source source' : Expr} {x y : String}
      {body body' : List Statement} (hsource : source.Alike vars source')
      (hbody : AlikeBody ((x, y) :: vars) body body') :
      Alike vars (.forEach source x body) (.forEach source' y body')
  | call {vars : List (String × String)} {function : String} {args args' : List Expr}
      (h : Expr.AlikeList vars args args') : Alike vars (.call function args) (.call function args')
  | noop {vars : List (String × String)} : Alike vars .noop .noop
  | setKey {vars : List (String × String)} {store : String} {key key' : List Expr}
      {value value' : Expr} (hkey : Expr.AlikeList vars key key')
      (hvalue : value.Alike vars value') :
      Alike vars (.setKey store key value) (.setKey store key' value')
  | deleteKey {vars : List (String × String)} {store : String} {key key' : List Expr}
      (hkey : Expr.AlikeList vars key key') :
      Alike vars (.deleteKey store key) (.deleteKey store key')
  | pushAtKey {vars : List (String × String)} {store : String} {key key' values values' : List Expr}
      (hkey : Expr.AlikeList vars key key') (hvalues : Expr.AlikeList vars values values') :
      Alike vars (.pushAtKey store key values) (.pushAtKey store key' values')

/-- Statements that follow each other: what a statement declares is in scope after it. -/
inductive AlikeBody : List (String × String) → List Statement → List Statement → Prop
  | nil {vars : List (String × String)} : AlikeBody vars [] []
  | cons {vars : List (String × String)} {s s' : Statement} {rest rest' : List Statement}
      (h : Alike vars s s') (hrest : AlikeBody (s.declares.zip s'.declares ++ vars) rest rest') :
      AlikeBody vars (s :: rest) (s' :: rest')

/-- Branches do not see each other's variables. -/
inductive AlikeBranches : List (String × String) → List (Guard × List Statement) →
    List (Guard × List Statement) → Prop
  | nil {vars : List (String × String)} : AlikeBranches vars [] []
  | cons {vars : List (String × String)} {guard guard' : Guard} {body body' : List Statement}
      {rest rest' : List (Guard × List Statement)} (hguard : guard.Alike vars guard')
      (hbody : AlikeBody vars body body') (hrest : AlikeBranches vars rest rest') :
      AlikeBranches vars ((guard, body) :: rest) ((guard', body') :: rest')
end

theorem Alike.length_declares {vars : List (String × String)} {s s' : Statement}
    (h : s.Alike vars s') : s.declares.length = s'.declares.length := by
  cases h <;> rfl

end Statement

/-- The same function up to the names of variables. -/
structure Function.Alike (f g : Function) : Prop where
  schemas : f.inputs.map Input.schema = g.inputs.map Input.schema
  body : Statement.AlikeBody
    ((f.inputs.map Input.name).reverse.zip (g.inputs.map Input.name).reverse) f.body g.body

namespace Scope

variable {α : Type}

/-- Scopes with the same values in variables of any names. -/
structure Alike (s t : Scope α) : Prop where
  inner : s.inner.length = t.inner.length
  outer : s.outer.map List.length = t.outer.map List.length
  values : s.live.map Prod.snd = t.live.map Prod.snd

theorem found_of_sameVariable {vars vars' : List (String × α)} {x y : String}
    (hvalues : vars.map Prod.snd = vars'.map Prod.snd)
    (h : SameVariable ((vars.map Prod.fst).zip (vars'.map Prod.fst)) x y) :
    slotIn x vars = slotIn y vars' ∧ valueIn x vars = valueIn y vars' ∧
      ∀ f : α → α, (modifyIn x f vars).map Prod.snd = (modifyIn y f vars').map Prod.snd := by
  induction vars generalizing vars' with
  | nil =>
      obtain rfl := List.map_eq_nil_iff.mp hvalues.symm
      exact ⟨rfl, rfl, fun _ => rfl⟩
  | cons var rest ih =>
      rcases vars' with _ | ⟨var', rest'⟩
      · cases hvalues
      · obtain ⟨hvalue, hrest⟩ := List.cons.inj hvalues
        have hlength : rest.length = rest'.length := by simpa using congrArg List.length hrest
        simp only [slotIn, valueIn, modifyIn]
        cases h with
        | found =>
            simp [hlength, hvalue, hrest]
        | passed hx hy h =>
            simp only [if_neg hx, if_neg hy, List.map_cons, hvalue]
            obtain ⟨hslot, hfound, hmodify⟩ := ih hrest h
            exact ⟨hslot, hfound, fun f => congrArg _ (hmodify f)⟩

/-- The names of the variables in scope on both sides, the last declared first. -/
def pairs (s t : Scope α) : List (String × String) :=
  s.names.zip t.names

theorem pairs_of_names {s t after after' : Scope α} {added added' : List String}
    (h : after.names = added ++ s.names) (h' : after'.names = added' ++ t.names)
    (hlength : added.length = added'.length) :
    after.pairs after' = added.zip added' ++ s.pairs t := by
  rw [pairs, h, h', List.zip_append hlength, pairs]

@[simp] theorem pairs_enter (s t : Scope α) : s.enter.pairs t.enter = s.pairs t := rfl

@[simp] theorem pairs_add (s t : Scope α) (x y : String) (value value' : α) :
    (s.add x value).pairs (t.add y value') = (x, y) :: s.pairs t := rfl

namespace Alike

variable {s t : Scope α} {x y : String}

theorem slot? (h : s.Alike t) (hname : SameVariable (s.pairs t) x y) : s.slot? x = t.slot? y :=
  (found_of_sameVariable h.values hname).1

theorem value? (h : s.Alike t) (hname : SameVariable (s.pairs t) x y) : s.value? x = t.value? y :=
  (found_of_sameVariable h.values hname).2.1

theorem add (h : s.Alike t) (x y : String) (value : α) : (s.add x value).Alike (t.add y value) where
  inner := congrArg Nat.succ h.inner
  outer := h.outer
  values := congrArg (value :: ·) h.values

theorem enter (h : s.Alike t) : s.enter.Alike t.enter where
  inner := rfl
  outer := congrArg₂ List.cons h.inner h.outer
  values := h.values

theorem nextSlot (h : s.Alike t) : s.nextSlot = t.nextSlot := by
  have hlength := congrArg List.length h.values
  rwa [List.length_map, List.length_map] at hlength

theorem leave (h : s.Alike t) : s.leave.Alike t.leave := by
  have hvalues := h.values
  rw [s.live_eq_append, t.live_eq_append, List.map_append, List.map_append] at hvalues
  have hinner : (s.inner.map Prod.snd).length = (t.inner.map Prod.snd).length := by
    rw [List.length_map, List.length_map, h.inner]
  obtain ⟨-, hvalues⟩ := List.append_inj hvalues hinner
  obtain ⟨-, houter, -⟩ := h
  rcases s with ⟨_, _ | ⟨scope, outer⟩⟩ <;> rcases t with ⟨_, _ | ⟨scope', outer'⟩⟩
  · exact ⟨rfl, rfl, hvalues⟩
  · cases houter
  · cases houter
  · obtain ⟨hscope, hrest⟩ := List.cons.inj houter
    exact ⟨hscope, hrest, hvalues⟩

theorem modify (h : s.Alike t) (hname : SameVariable (s.pairs t) x y) (f : α → α) :
    (s.modify x f).Alike (t.modify y f) := by
  have hinner : ∀ (u : Scope α) (name : String),
      (u.modify name f).inner.length = u.inner.length := by
    intro u name
    simpa [shape] using congrArg (List.length ·.inner) (shape_modify u name f)
  have houter : ∀ (u : Scope α) (name : String),
      (u.modify name f).outer.map List.length = u.outer.map List.length := by
    intro u name
    simpa [shape, Function.comp_def] using
      congrArg (List.map List.length ·.outer) (shape_modify u name f)
  refine ⟨?_, ?_, ?_⟩
  · rw [hinner, hinner, h.inner]
  · rw [houter, houter, h.outer]
  · rw [live_modify, live_modify]
    exact (found_of_sameVariable h.values hname).2.2 f

end Alike

end Scope

end StoredProcedure
