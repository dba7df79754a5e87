import StoredProcedure.Proofs.Acceptance
import StoredProcedure.Proofs.Alike

namespace StoredProcedure

section Computation

variable {α β γ δ : Type} {R : α → β → Prop}

/-- Both computations give results that are related, or both are refused for faults of one kind. -/
inductive SameOutcome (R : α → β → Prop) : Except Fault α → Except Fault β → Prop
  | ok {a : α} {b : β} (h : R a b) : SameOutcome R (.ok a) (.ok b)
  | error {fault fault' : Fault} (h : fault.kind = fault'.kind) :
      SameOutcome R (.error fault) (.error fault')

namespace SameOutcome

theorem bind {S : γ → δ → Prop} {x : Except Fault α} {y : Except Fault β} {f : α → Except Fault γ}
    {g : β → Except Fault δ} (h : SameOutcome R x y)
    (hnext : ∀ a b, x = .ok a → y = .ok b → R a b → SameOutcome S (f a) (g b)) :
    SameOutcome S (x >>= f) (y >>= g) := by
  cases h with
  | ok h => exact hnext _ _ rfl rfl h
  | error h => exact error h

theorem congr {S : γ → δ → Prop} {x y : Except Fault α} {f : α → Except Fault γ}
    {g : α → Except Fault δ} (h : SameOutcome (· = ·) x y)
    (hnext : ∀ a, SameOutcome S (f a) (g a)) : SameOutcome S (x >>= f) (y >>= g) := by
  refine h.bind ?_
  rintro a _ - - rfl
  exact hnext a

theorem refl (x : Except Fault α) : SameOutcome (· = ·) x x := by
  cases x with
  | ok a => exact ok rfl
  | error fault => exact error rfl

theorem andReturn {x y : Except Fault α} (h : SameOutcome (· = ·) x y) (f : α → γ) :
    SameOutcome (· = ·) (x >>= fun a => pure (f a)) (y >>= fun a => pure (f a)) :=
  h.congr fun _ => ok rfl

theorem mapError_kind {x y : Except Fault α} (h : SameOutcome (· = ·) x y) :
    x.mapError Fault.kind = y.mapError Fault.kind := by
  cases h with
  | ok h => rw [h]
  | error h => exact congrArg Except.error h

/-- Lists whose items have the same outcomes are treated item by item. -/
theorem list {ι κ : Type} {f : ι → Except Fault α} {g : κ → Except Fault α}
    {p : List ι → Except Fault γ} {q : List κ → Except Fault γ} {stop : γ} {join : α → γ → γ}
    (hnil : p [] = .ok stop) (hnil' : q [] = .ok stop)
    (hcons : ∀ x rest, p (x :: rest) = f x >>= fun a => p rest >>= fun c => pure (join a c))
    (hcons' : ∀ x rest, q (x :: rest) = g x >>= fun a => q rest >>= fun c => pure (join a c))
    {xs : List ι} {ys : List κ}
    (h : List.Forall₂ (fun x y => SameOutcome (· = ·) (f x) (g y)) xs ys) :
    SameOutcome (· = ·) (p xs) (q ys) := by
  induction h with
  | nil =>
      rw [hnil, hnil']
      exact ok rfl
  | cons hfirst _ ih =>
      rw [hcons, hcons']
      exact hfirst.congr fun a => ih.andReturn (join a)

theorem fields {f g : Expr → Except Fault α} {p q : List (Expr × Expr) → Except Fault γ} {stop : γ}
    {join : α → α → γ → γ} (hnil : p [] = .ok stop) (hnil' : q [] = .ok stop)
    (hcons : ∀ key value rest, p ((key, value) :: rest) =
      f key >>= fun a => f value >>= fun b => p rest >>= fun c => pure (join a b c))
    (hcons' : ∀ key value rest, q ((key, value) :: rest) =
      g key >>= fun a => g value >>= fun b => q rest >>= fun c => pure (join a b c))
    {xs : List (Expr × Expr)} {es : List Expr}
    (h : List.Forall₂ (fun e e' => SameOutcome (· = ·) (f e) (g e')) (Expr.object xs).children es) :
    SameOutcome (· = ·) (p xs) (q (Expr.pairs es)) := by
  induction xs generalizing es with
  | nil =>
      obtain rfl := List.forall₂_nil_left_iff.mp h
      have hpairs : Expr.pairs [] = [] := rfl
      rw [hpairs, hnil, hnil']
      exact ok rfl
  | cons field rest ih =>
      rw [Expr.children_object_cons] at h
      obtain ⟨key, _, hkey, hnext, rfl⟩ := List.forall₂_cons_left_iff.mp h
      obtain ⟨value, more, hvalue, hmore, rfl⟩ := List.forall₂_cons_left_iff.mp hnext
      rw [Expr.pairs, hcons, hcons']
      exact hkey.congr fun a => hvalue.congr fun b => (ih hmore).andReturn (join a b)

end SameOutcome

end Computation

theorem isEmpty_eq_of_length_eq {α β : Type} {xs : List α} {ys : List β}
    (h : xs.length = ys.length) : xs.isEmpty = ys.isEmpty := by
  rw [Bool.eq_iff_iff, List.isEmpty_iff_length_eq_zero, List.isEmpty_iff_length_eq_zero, h]

namespace Expr

theorem toList_head?_of_forall₂ {R : Expr → Expr → Prop} {state : Option Expr} {es : List Expr}
    (h : List.Forall₂ R state.toList es) : es.head?.toList = es := by
  have hlength := h.length_eq
  cases state with
  | none =>
      obtain rfl := List.eq_nil_of_length_eq_zero hlength.symm
      rfl
  | some state =>
      obtain ⟨e, rfl⟩ := List.length_eq_one_iff.mp hlength.symm
      rfl

section Compile

variable {slots slots' : Slots} {es es' : List Expr}

/-- The expressions have the same code on both sides. -/
abbrev SameCode (slots slots' : Slots) (e e' : Expr) : Prop :=
  SameOutcome (· = ·) (e.compile slots) (e'.compile slots')

theorem sameOutcome_compileList (h : List.Forall₂ (SameCode slots slots') es es') :
    SameOutcome (· = ·) (compileList slots es) (compileList slots' es') :=
  .list (p := compileList slots) (q := compileList slots') rfl rfl (fun _ _ => rfl)
    (fun _ _ => rfl) h

theorem sameOutcome_compilePushes (h : List.Forall₂ (SameCode slots slots') es es') :
    SameOutcome (· = ·) (compilePushes slots es) (compilePushes slots' es') :=
  .list (p := compilePushes slots) (q := compilePushes slots') rfl rfl (fun _ _ => rfl)
    (fun _ _ => rfl) h

theorem sameOutcome_compileFields {fields : List (Expr × Expr)}
    (h : List.Forall₂ (SameCode slots slots') (object fields).children es) :
    SameOutcome (· = ·) (compileFields slots fields) (compileFields slots' (pairs es)) :=
  .fields (p := compileFields slots) (q := compileFields slots') rfl rfl (fun _ _ _ => rfl)
    (fun _ _ _ => rfl) h

theorem sameOutcome_compileState {state state' : Option Expr}
    (h : List.Forall₂ (SameCode slots slots') state.toList state'.toList) :
    SameOutcome (· = ·) (compileState slots state) (compileState slots' state') := by
  rcases state with _ | state <;> rcases state' with _ | state'
  · exact .ok rfl
  · cases h
  · cases h
  · exact (List.forall₂_cons.mp h).1.andReturn _

theorem sameOutcome_compile_node {e : Expr} (hself : e.kind ≠ .saved)
    (h : List.Forall₂ (SameCode slots slots') e.children es) :
    SameCode slots slots' e (e.withChildren es) := by
  have hlength := h.length_eq
  cases e with
  | bool | int | double | string | nothing | wholeObject | keysOfObject | globalObject =>
      exact .refl _
  | saved name => exact absurd rfl hself
  | object fields => exact (sameOutcome_compileFields h).andReturn _
  | array values => exact (sameOutcome_compilePushes h).andReturn _
  | call function args =>
      change args.length = es.length at hlength
      rw [SameCode, withChildren, compile, compile, hlength]
      exact (sameOutcome_compileList h).andReturn _
  | negation value | typeOf value | hasType value type | keys value | keyExists store value =>
      obtain ⟨_, _, hvalue, hnil, rfl⟩ := List.forall₂_cons_left_iff.mp h
      obtain rfl := List.forall₂_nil_left_iff.mp hnil
      exact hvalue.andReturn _
  | comparison sign left right | arithmetic sign left right | logic sign left right
  | fieldExists left right =>
      obtain ⟨_, _, hleft, hnext, rfl⟩ := List.forall₂_cons_left_iff.mp h
      obtain ⟨_, _, hright, hnil, rfl⟩ := List.forall₂_cons_left_iff.mp hnext
      obtain rfl := List.forall₂_nil_left_iff.mp hnil
      exact hleft.congr fun _ => hright.andReturn _
  | selection root level =>
      obtain ⟨root', level', hroot, hlevel, rfl⟩ := List.forall₂_cons_left_iff.mp h
      have hcount := hlevel.length_eq
      rw [SameCode, withChildren, compile, compile, isEmpty_eq_of_length_eq hcount, hcount]
      refine hroot.congr fun _ => ?_
      split
      · exact .refl _
      · exact (sameOutcome_compileList hlevel).andReturn _
  | role schema state =>
      rw [SameCode, withChildren, compile, compile]
      cases schema.roleName? with
      | none => exact .error rfl
      | some name =>
          refine (sameOutcome_compileState ?_).andReturn _
          rwa [toList_head?_of_forall₂ h]
  | keyOfObject store key =>
      rcases key with _ | ⟨first, rest⟩
      · obtain rfl := List.forall₂_nil_left_iff.mp h
        exact .error rfl
      · obtain ⟨first', rest', hfirst, hrest, rfl⟩ := List.forall₂_cons_left_iff.mp h
        rw [SameCode, withChildren, compile, compile, hrest.length_eq]
        exact (sameOutcome_compileList hrest).congr fun _ => hfirst.andReturn _

theorem sameOutcome_resolve {x y : String} (hslots : slots.Alike slots')
    (h : SameVariable (slots.pairs slots') x y) :
    SameOutcome (· = ·) (slots.resolve x) (slots'.resolve y) := by
  rw [Slots.resolve, Slots.resolve, hslots.slot? h]
  cases slots'.slot? y with
  | none => exact .error rfl
  | some slot => exact .ok rfl

theorem sameOutcome_compile (hslots : slots.Alike slots') {e e' : Expr}
    (h : e.Alike (slots.pairs slots') e') : SameCode slots slots' e e' :=
  h.on_children (fun hname => (sameOutcome_resolve hslots hname).andReturn _)
    sameOutcome_compile_node

theorem forall₂_sameCode (hslots : slots.Alike slots')
    (h : AlikeList (slots.pairs slots') es es') : List.Forall₂ (SameCode slots slots') es es' :=
  h.imp fun _ _ => sameOutcome_compile hslots

theorem sameOutcome_compileAppends (h : List.Forall₂ (SameCode slots slots') es es') (slot : Nat) :
    SameOutcome (· = ·) (compileAppends slots slot es) (compileAppends slots' slot es') :=
  .list (p := compileAppends slots slot) (q := compileAppends slots' slot) rfl rfl (fun _ _ => rfl)
    (fun _ _ => rfl) h

theorem sameOutcome_compileArray (h : List.Forall₂ (SameCode slots slots') es es') :
    SameOutcome (· = ·) (compileArray slots es) (compileArray slots' es') :=
  (sameOutcome_compilePushes h).andReturn _

end Compile

end Expr

theorem Lowering.sameOutcome_requireField (x y : String) {level level' : List Expr}
    (h : level.length = level'.length) :
    SameOutcome (· = ·) (requireField x level) (requireField y level') := by
  rcases level with _ | ⟨first, rest⟩ <;> rcases level' with _ | ⟨first', rest'⟩
  · exact .error rfl
  · cases h
  · cases h
  · exact .ok rfl

theorem Choice.sameOutcome_shapeFrom {vars : List (String × String)}
    {branches branches' : List Branch} (h : Statement.AlikeBranches vars branches branches')
    (index : Nat) (otherwiseSeen : Bool) :
    SameOutcome (fun _ _ => True) (shapeFrom index otherwiseSeen branches)
      (shapeFrom index otherwiseSeen branches') := by
  induction branches generalizing branches' index otherwiseSeen with
  | nil =>
      cases h
      rw [shapeFrom]
      split
      · exact .error rfl
      · exact .ok trivial
  | cons branch rest ih =>
      cases h with
      | cons hguard hbody hrest =>
          cases hguard with
          | when hcondition =>
              rw [shapeFrom, shapeFrom]
              split
              · exact .error rfl
              · exact (ih hrest (index + 1) false).bind fun _ _ _ _ _ => .ok trivial
          | otherwise =>
              rw [shapeFrom, shapeFrom]
              split
              · exact .error rfl
              · split
                · exact .error rfl
                · exact (ih hrest (index + 1) true).bind fun _ _ _ _ _ => .ok trivial
          | lastly =>
              rw [shapeFrom, shapeFrom]
              split
              · exact .error rfl
              · cases hrest with
                | nil => exact .ok trivial
                | cons => exact .error rfl

section Compile

variable {slots slots' : Slots}

theorem Edit.sameOutcome_compile (hslots : slots.Alike slots') (x y : String) (slot : Nat)
    {level level' : List Expr} (hlevel : Expr.AlikeList (slots.pairs slots') level level')
    {edit edit' : Edit} (h : edit.Alike (slots.pairs slots') edit') :
    SameOutcome (· = ·) (edit.compile slots x slot level) (edit'.compile slots' y slot level') := by
  have hlength := hlevel.length_eq
  have hempty := isEmpty_eq_of_length_eq hlength
  have hpath := Expr.sameOutcome_compileList (Expr.forall₂_sameCode hslots hlevel)
  cases h with
  | push h =>
      have hvalues := Expr.forall₂_sameCode hslots h
      rw [compile, compile, hempty, hlength]
      split
      · exact Expr.sameOutcome_compileAppends hvalues slot
      · exact hpath.congr fun _ => (Expr.sameOutcome_compileArray hvalues).andReturn _
  | deleteField =>
      rw [compile, compile, hlength]
      exact (Lowering.sameOutcome_requireField x y hlength).congr fun _ => hpath.andReturn _
  | set h =>
      have hvalue := Expr.sameOutcome_compile hslots h
      rw [compile, compile, hempty, hlength]
      split
      · exact hvalue.andReturn _
      · exact hpath.congr fun _ => hvalue.andReturn _

theorem Guard.sameOutcome_compile (hslots : slots.Alike slots') (body : Code) {guard guard' : Guard}
    (h : guard.Alike (slots.pairs slots') guard') :
    SameOutcome (· = ·) (guard.compile slots body) (guard'.compile slots' body) := by
  cases h with
  | when h => exact (Expr.sameOutcome_compile hslots h).andReturn _
  | otherwise | lastly => exact .refl _

theorem Scope.Alike.truncation (h : slots.Alike slots') : slots.truncation = slots'.truncation := by
  rw [Slots.truncation, Slots.truncation, Scope.declared, Scope.declared, h.inner]

/-- The same code, and scopes that are alike after it. -/
def SameCompiled (r r' : Code × Slots) : Prop :=
  r.1 = r'.1 ∧ r.2.Alike r'.2

theorem SameOutcome.andKeep {α : Type} {x y : Except Fault α} (h : SameOutcome (· = ·) x y)
    (hslots : slots.Alike slots') (f : α → Code) :
    SameOutcome SameCompiled (x >>= fun a => pure (f a, slots))
      (y >>= fun a => pure (f a, slots')) :=
  h.congr fun _ => .ok ⟨rfl, hslots⟩

namespace Statement

theorem pairs_of_compile {s s' : Statement} {r r' : Code × Slots}
    (hdeclares : s.declares.length = s'.declares.length) (h : s.compile slots = .ok r)
    (h' : s'.compile slots' = .ok r') :
    r.2.pairs r'.2 = s.declares.zip s'.declares ++ slots.pairs slots' := by
  refine Scope.pairs_of_names ?_ ?_ hdeclares
  · rw [eq_scopeAfter_of_compile h, names_scopeAfter]
  · rw [eq_scopeAfter_of_compile h', names_scopeAfter]

mutual
theorem sameOutcome_compile : (s : Statement) → (slots slots' : Slots) → slots.Alike slots' →
    {s' : Statement} → s.Alike (slots.pairs slots') s' →
    SameOutcome SameCompiled (s.compile slots) (s'.compile slots')
  | .ret value, slots, slots', hslots, .ret value', .ret h => by
      rcases value with _ | value <;> rcases value' with _ | value'
      · exact .ok ⟨rfl, hslots⟩
      · cases h
      · cases h
      · exact (Expr.sameOutcome_compile hslots (List.forall₂_cons.mp h).1).andKeep hslots _
  | .save x value, slots, slots', hslots, .save y value', .save h =>
      (Expr.sameOutcome_compile hslots h).congr fun _ => .ok ⟨rfl, hslots.add x y ()⟩
  | .update target level edit, slots, slots', hslots, _, .update htarget hlevel hedit => by
      cases htarget with
      | globalObject => exact .error rfl
      | saved hname =>
          refine (Expr.sameOutcome_resolve hslots hname).congr fun slot => ?_
          exact (Edit.sameOutcome_compile hslots _ _ slot hlevel hedit).andKeep hslots id
  | .choice branches, slots, slots', hslots, _, .choice h => by
      refine (Choice.sameOutcome_shapeFrom h 0 false).bind fun _ _ _ _ _ => ?_
      exact (sameOutcome_compileBranches branches slots slots' hslots h).andKeep hslots
        fun r => r.1 ++ r.2
  | .forEach source x body, slots, slots', hslots, .forEach source' y body',
      .forEach hsource hbody => by
      have hinner := hslots.enter.add x y ()
      refine (Expr.sameOutcome_compile hslots hsource).congr fun _ => ?_
      refine (sameOutcome_compileBody body _ _ hinner hbody).bind ?_
      rintro ⟨code, after⟩ ⟨_, after'⟩ - - ⟨rfl, hafter⟩
      refine .ok ⟨?_, hslots⟩
      simp only [Scope.declared, hafter.inner]
  | .call function args, slots, slots', hslots, .call _ args', .call h => by
      have hlength : args.length = args'.length := h.length_eq
      rw [compile, compile, hlength]
      exact (Expr.sameOutcome_compileList (Expr.forall₂_sameCode hslots h)).andKeep hslots _
  | .noop, slots, slots', hslots, _, .noop => .ok ⟨rfl, hslots⟩
  | .setKey store key value, slots, slots', hslots, _, .setKey hkey hvalue => by
      cases hkey with
      | nil => exact .error rfl
      | cons hfirst hrest =>
          rw [compile, compile, hrest.length_eq]
          have hmore := Expr.sameOutcome_compileList (Expr.forall₂_sameCode hslots hrest)
          refine hmore.congr fun _ => ?_
          refine (Expr.sameOutcome_compile hslots hvalue).congr fun _ => ?_
          exact (Expr.sameOutcome_compile hslots hfirst).andKeep hslots _
  | .deleteKey store key, slots, slots', hslots, _, .deleteKey hkey => by
      cases hkey with
      | nil => exact .error rfl
      | cons hfirst hrest =>
          rw [compile, compile, hrest.length_eq]
          have hmore := Expr.sameOutcome_compileList (Expr.forall₂_sameCode hslots hrest)
          refine hmore.congr fun _ => ?_
          exact (Expr.sameOutcome_compile hslots hfirst).andKeep hslots _
  | .pushAtKey store key values, slots, slots', hslots, _, .pushAtKey hkey hvalues => by
      cases hkey with
      | nil => exact .error rfl
      | cons hfirst hrest =>
          rw [compile, compile, hrest.length_eq]
          have hmore := Expr.sameOutcome_compileList (Expr.forall₂_sameCode hslots hrest)
          refine hmore.congr fun _ => ?_
          refine (Expr.sameOutcome_compileArray (Expr.forall₂_sameCode hslots hvalues)).congr
            fun _ => ?_
          exact (Expr.sameOutcome_compile hslots hfirst).andKeep hslots _

theorem sameOutcome_compileBody : (body : List Statement) → (slots slots' : Slots) →
    slots.Alike slots' → {body' : List Statement} → AlikeBody (slots.pairs slots') body body' →
    SameOutcome SameCompiled (compileBody slots body) (compileBody slots' body')
  | [], slots, slots', hslots, _, .nil => .ok ⟨rfl, hslots⟩
  | s :: rest, slots, slots', hslots, _, .cons h hrest => by
      refine (sameOutcome_compile s slots slots' hslots h).bind ?_
      rintro ⟨code, after⟩ ⟨_, after'⟩ hs hs' ⟨rfl, hafter⟩
      rw [← pairs_of_compile h.length_declares hs hs'] at hrest
      refine (sameOutcome_compileBody rest after after' hafter hrest).bind ?_
      rintro ⟨codes, final⟩ ⟨_, final'⟩ - - ⟨rfl, hfinal⟩
      exact .ok ⟨rfl, hfinal⟩

theorem sameOutcome_compileBranches : (branches : List (Guard × List Statement)) →
    (slots slots' : Slots) → slots.Alike slots' → {branches' : List (Guard × List Statement)} →
    AlikeBranches (slots.pairs slots') branches branches' →
    SameOutcome (· = ·) (compileBranches slots branches) (compileBranches slots' branches')
  | [], slots, slots', hslots, _, .nil => .ok rfl
  | (guard, body) :: rest, slots, slots', hslots, _, .cons hguard hbody hrest => by
      have hscope := sameOutcome_compileBody body _ _ hslots.enter hbody
      have hlater := sameOutcome_compileBranches rest slots slots' hslots hrest
      have htest := fun code => Guard.sameOutcome_compile hslots code hguard
      cases hguard with
      | lastly =>
          refine hscope.bind ?_
          rintro ⟨code, after⟩ ⟨_, after'⟩ - - ⟨rfl, hafter⟩
          refine .ok ?_
          simp only [hafter.truncation]
      | when | otherwise =>
          refine hscope.bind ?_
          rintro ⟨code, after⟩ ⟨_, after'⟩ - - ⟨rfl, hafter⟩
          simp only [hafter.truncation]
          exact (htest _).congr fun _ => hlater.andReturn _
end

end Statement

end Compile

namespace Function

theorem sameCompiled_prologue {slots slots' : Slots} (hslots : slots.Alike slots')
    {inputs inputs' : List Input} (h : inputs.map Input.schema = inputs'.map Input.schema) :
    SameCompiled (prologue slots inputs) (prologue slots' inputs') := by
  induction inputs generalizing slots slots' inputs' with
  | nil =>
      obtain rfl := List.map_eq_nil_iff.mp h.symm
      exact ⟨rfl, hslots⟩
  | cons input rest ih =>
      rcases inputs' with _ | ⟨input', rest'⟩
      · cases h
      · obtain ⟨hschema, hrest⟩ := List.cons.inj h
        obtain ⟨hcode, hinner⟩ := ih (hslots.add input.name input'.name ()) hrest
        refine ⟨?_, hinner⟩
        simp only [prologue, inputCheck, hschema, hslots.nextSlot, hcode]

variable {f g : Function}

theorem Alike.sameOutcome_compile (h : f.Alike g) : SameOutcome (· = ·) f.compile g.compile := by
  have halike : Scope.Alike (Scope.empty : Slots) Scope.empty := ⟨rfl, rfl, rfl⟩
  obtain ⟨hchecks, hslots⟩ := sameCompiled_prologue halike h.schemas
  have hnames : ∀ f : Function,
      (prologue Scope.empty f.inputs).2.names = (f.inputs.map Input.name).reverse := by
    intro f
    rw [names_prologue]
    exact List.append_nil _
  have hbody := h.body
  rw [← hnames, ← hnames] at hbody
  have hlength : f.inputs.length = g.inputs.length := by
    simpa using congrArg List.length h.schemas
  refine (Statement.sameOutcome_compileBody _ _ _ hslots hbody).bind ?_
  rintro ⟨code, after⟩ ⟨_, after'⟩ - - ⟨rfl, -⟩
  refine .ok ?_
  rw [hchecks, hlength]

end Function

end StoredProcedure
