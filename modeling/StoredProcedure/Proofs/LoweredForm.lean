import StoredProcedure.Analysis.Program
import StoredProcedure.Bundle
import StoredProcedure.Proofs.LoweringStep

namespace StoredProcedure

namespace Expr

theorem globalObject_not_mem_kinds {e : Expr} :
    .globalObject ∉ e.kinds ↔
      e.global? = none ∧ ∀ child ∈ e.children, .globalObject ∉ child.kinds := by
  rw [mem_kinds (by decide), global?_eq_none, not_or, ne_comm]
  simp

theorem globalObject_not_mem_kindsList {es : List Expr} :
    .globalObject ∉ kindsList es ↔ ∀ e ∈ es, .globalObject ∉ e.kinds := by
  simp [mem_kindsList]

end Expr

theorem Edit.globalObject_not_mem_kinds {edit : Edit} :
    .globalObject ∉ edit.kinds ↔ .globalObject ∉ Expr.kindsList edit.inputs := by
  cases edit <;> simp [kinds, inputs, Expr.kindsList]

namespace Lowering

variable {declared : Option NameSet}

theorem rewriteExpr_eq_self {e : Expr} (h : .globalObject ∉ e.kinds) :
    (rewriter declared).rewriteExpr e = .ok e := by
  induction e using Expr.induction_on_children with
  | node e ih =>
      obtain ⟨hself, hchildren⟩ := Expr.globalObject_not_mem_kinds.mp h
      have hmap : e.children.mapM (rewriter declared).rewriteExpr = .ok e.children :=
        mapM_eq_self fun child hchild => ih child hchild (hchildren child hchild)
      have hlowers := Lowers.rebuilt hself hmap
      rw [Expr.withChildren_children] at hlowers
      exact rewriteExpr_eq_ok_iff.mpr hlowers

theorem mapM_rewriteExpr_eq_self {es : List Expr} (h : .globalObject ∉ Expr.kindsList es) :
    es.mapM (rewriter declared).rewriteExpr = .ok es :=
  mapM_eq_self fun e he => rewriteExpr_eq_self (Expr.globalObject_not_mem_kindsList.mp h e he)

theorem walkOption_eq_self {o : Option Expr} (h : .globalObject ∉ Expr.kindsOption o) :
    (rewriter declared).walkOption o = .ok o := by
  cases o with
  | none => rfl
  | some e => exact bind_eq_ok.mpr ⟨e, rewriteExpr_eq_self h, rfl⟩

theorem pushed_eq_self {es : List Expr} (h : .globalObject ∉ Expr.kindsList es) :
    (rewriter declared).pushed ((rewriter declared).parts es) = .ok es :=
  pushed_eq_ok.mpr (mapM_rewriteExpr_eq_self h)

theorem rewriteGuard_eq_self {guard : Guard} (h : .globalObject ∉ guard.kinds) :
    (rewriter declared).rewriteGuard guard = .ok guard := by
  cases guard with
  | when condition =>
      simp only [Guard.kinds, List.mem_cons, not_or] at h
      rw [Rewriter.rewriteGuard, rewriteExpr_eq_self h.2]
      rfl
  | otherwise | lastly => rfl

theorem globalObject_not_mem_of_rewriteExpr {e e' : Expr}
    (h : (rewriter declared).rewriteExpr e = .ok e') : .globalObject ∉ e'.kinds := by
  induction e using Expr.induction_on_children generalizing e' with
  | node e ih =>
      -- Some accesses drop children, so the results of any part of the children are needed.
      have hresults : ∀ es es' : List Expr, es ⊆ e.children →
          es.mapM (rewriter declared).rewriteExpr = .ok es' →
            .globalObject ∉ Expr.kindsList es' := by
        intro es es' hsub hes
        rw [Expr.globalObject_not_mem_kindsList]
        intro child' hchild'
        obtain ⟨child, hchild, hresult⟩ := exists_of_mem_mapM hes child' hchild'
        exact ih child (hsub hchild) hresult
      cases rewriteExpr_eq_ok_iff.mp h with
      | rebuilt hself hchildren =>
          rw [Expr.globalObject_not_mem_kinds, Expr.global?_eq_none, Expr.kind_withChildren,
            Expr.children_withChildren (length_of_mapM hchildren)]
          refine ⟨Expr.global?_eq_none.mp hself, ?_⟩
          exact Expr.globalObject_not_mem_kindsList.mp (hresults _ _ (List.Subset.refl _) hchildren)
      | whole hname | selectedKeys hname | keys hname => simp [Expr.kinds]
      | selectedAmongKeys hname hrest hlevel =>
          have hkinds := hresults _ _ (by simp [Expr.children]) hlevel
          simpa [Expr.kinds] using hkinds
      | selectedValue hname hfirst hlevel =>
          have hkinds := hresults _ _ (by simp [Expr.children]) hlevel
          simpa [Expr.kinds] using hkinds
      | keyExists hname hfield =>
          have hkinds := ih _ (by simp [Expr.children]) hfield
          simpa [Expr.kinds] using hkinds

theorem globalObject_not_mem_of_mapM {es es' : List Expr}
    (h : es.mapM (rewriter declared).rewriteExpr = .ok es') :
    .globalObject ∉ Expr.kindsList es' := by
  rw [Expr.globalObject_not_mem_kindsList]
  intro e' he'
  obtain ⟨e, _, hresult⟩ := exists_of_mem_mapM h e' he'
  exact globalObject_not_mem_of_rewriteExpr hresult

theorem globalObject_not_mem_of_walkOption {o o' : Option Expr}
    (h : (rewriter declared).walkOption o = .ok o') : .globalObject ∉ Expr.kindsOption o' := by
  cases o with
  | none =>
      obtain rfl := Except.ok.inj h
      simp [Expr.kindsOption]
  | some e =>
      obtain ⟨e', he', hsome⟩ := bind_eq_ok.mp h
      obtain rfl := pure_eq_ok.mp hsome
      exact globalObject_not_mem_of_rewriteExpr he'

theorem globalObject_not_mem_of_rewriteGuard {guard guard' : Guard}
    (h : (rewriter declared).rewriteGuard guard = .ok guard') : .globalObject ∉ guard'.kinds := by
  cases guard with
  | when condition =>
      obtain ⟨condition', hcondition, hwhen⟩ := bind_eq_ok.mp h
      obtain rfl := pure_eq_ok.mp hwhen
      simpa [Guard.kinds] using globalObject_not_mem_of_rewriteExpr hcondition
  | otherwise | lastly =>
      obtain rfl := Except.ok.inj h
      simp [Guard.kinds]

end Lowering

/-- The variable that a statement deletes as a whole. -/
def Statement.deleted? : Statement → Option String
  | .update (.saved name) [] .deleteField => some name
  | _ => none

theorem Statement.deleted?_eq_some {s : Statement} {name : String} :
    s.deleted? = some name ↔ s = .update (.saved name) [] .deleteField := by
  fun_cases deleted? s <;> simp_all

/-- The variables that are deleted as a whole. -/
def Site.deletions (sites : List Site) : List String :=
  sites.filterMap fun site => site.statement.deleted?

theorem Site.deletions_append (sites others : List Site) :
    deletions (sites ++ others) = deletions sites ++ deletions others :=
  List.filterMap_append

namespace Lowering

/-- Refuses the first deletion of a variable. -/
def unlessDeleted {α : Type} : List String → α → Except Fault α
  | [], a => .ok a
  | name :: _, _ => .error (.variableDeleted name)

theorem unlessDeleted_bind {α β : Type} (names : List String) (a : α) (f : α → β) :
    (do return f (← unlessDeleted names a)) = unlessDeleted names (f a) := by
  cases names <;> rfl

theorem unlessDeleted_append {α β γ : Type} (names others : List String) (a : α) (b : β)
    (f : α → β → γ) :
    (do
      let a ← unlessDeleted names a
      return f a (← unlessDeleted others b)) = unlessDeleted (names ++ others) (f a b) := by
  cases names with
  | nil => exact unlessDeleted_bind others b (f a)
  | cons name rest => rfl

variable {declared : Option NameSet}

theorem updateSaved_eq_unlessDeleted {names : List String} {name : String} {level : List Expr}
    {edit : Edit} (hlevel : .globalObject ∉ Expr.kindsList level)
    (hedit : .globalObject ∉ edit.kinds) :
    (rewriter declared).rewrite (.update (.saved name) level edit) =
      unlessDeleted (Site.deletions [⟨names, .update (.saved name) level edit⟩])
        (.update (.saved name) level edit) := by
  rw [rewrite_update]
  cases edit with
  | push values =>
      simp only [Edit.kinds, List.mem_cons, not_or] at hedit
      simp only [update, Rewriter.rewriteEdit, Rewriter.results_parts,
        mapM_rewriteExpr_eq_self hlevel, pushed_eq_self hedit.2]
      cases level <;> rfl
  | deleteField =>
      simp only [update, Rewriter.rewriteEdit, Rewriter.results_parts,
        mapM_rewriteExpr_eq_self hlevel]
      cases level <;> rfl
  | set value =>
      simp only [update, Rewriter.rewriteEdit, Rewriter.results_parts,
        mapM_rewriteExpr_eq_self hlevel, rewriteExpr_eq_self hedit]
      cases level <;> rfl

mutual
theorem rewrite_eq_unlessDeleted : (s : Statement) → (names : List String) →
    .globalObject ∉ s.kinds →
    (rewriter declared).rewrite s =
      unlessDeleted (Site.deletions (⟨names, s⟩ :: s.sitesWithin names)) s
  | .ret value, names, h => by
      simp only [Statement.kinds, List.mem_cons, not_or] at h
      rw [Rewriter.rewrite, walkOption_eq_self h.2]
      rfl
  | .save name value, names, h => by
      simp only [Statement.kinds, List.mem_cons, not_or] at h
      rw [Rewriter.rewrite, rewriteExpr_eq_self h.2]
      rfl
  | .update (.globalObject name) level edit, names, h => by
      simp [Statement.kinds, Target.kinds] at h
  | .update (.saved name) level edit, names, h => by
      simp only [Statement.kinds, List.cons_append, List.mem_cons, List.mem_append, not_or] at h
      exact updateSaved_eq_unlessDeleted h.2.1.2 h.2.2
  | .choice branches, names, h => by
      simp only [Statement.kinds, List.mem_cons, not_or] at h
      rw [Rewriter.rewrite, rewriteBranches_eq_unlessDeleted branches names h.2]
      exact unlessDeleted_bind _ _ _
  | .forEach source item body, names, h => by
      simp only [Statement.kinds, List.mem_cons, List.mem_append, not_or] at h
      rw [Rewriter.rewrite, rewriteExpr_eq_self h.1.2,
        rewriteBody_eq_unlessDeleted body (item :: names) h.2]
      exact unlessDeleted_bind _ _ _
  | .call function args, names, h | .deleteKey store args, names, h => by
      simp only [Statement.kinds, List.mem_cons, not_or] at h
      rw [Rewriter.rewrite, Rewriter.rewriteExprs, Rewriter.results_parts,
        mapM_rewriteExpr_eq_self h.2]
      rfl
  | .noop, names, h => rfl
  | .setKey store key value, names, h => by
      simp only [Statement.kinds, List.mem_cons, List.mem_append, not_or] at h
      rw [Rewriter.rewrite, Rewriter.rewriteExprs, Rewriter.results_parts,
        mapM_rewriteExpr_eq_self h.1.2, rewriteExpr_eq_self h.2]
      rfl
  | .pushAtKey store key values, names, h => by
      simp only [Statement.kinds, List.mem_cons, List.mem_append, not_or] at h
      rw [Rewriter.rewrite, Rewriter.rewriteExprs, Rewriter.results_parts,
        mapM_rewriteExpr_eq_self h.1.2, pushed_eq_self h.2]
      rfl
termination_by structural s => s

theorem rewriteBody_eq_unlessDeleted : (body : List Statement) → (names : List String) →
    .globalObject ∉ Statement.kindsList body →
    (rewriter declared).rewriteBody body =
      unlessDeleted (Site.deletions (Statement.sitesBody names body)) body
  | [], names, h => rfl
  | s :: rest, names, h => by
      simp only [Statement.kindsList, List.mem_append, not_or] at h
      rw [Rewriter.rewriteBody, rewrite_eq_unlessDeleted s names h.1,
        rewriteBody_eq_unlessDeleted rest (s.declares ++ names) h.2, Statement.sitesBody,
        Site.deletions_append]
      exact unlessDeleted_append _ _ _ _ _
termination_by structural body => body

theorem rewriteBranches_eq_unlessDeleted : (branches : List (Guard × List Statement)) →
    (names : List String) → .globalObject ∉ Statement.kindsBranches branches →
    (rewriter declared).rewriteBranches branches =
      unlessDeleted (Site.deletions (Statement.sitesBranches names branches)) branches
  | [], names, h => rfl
  | (guard, body) :: rest, names, h => by
      simp only [Statement.kindsBranches, List.mem_append, not_or] at h
      rw [Rewriter.rewriteBranches, rewriteGuard_eq_self h.1.1,
        rewriteBody_eq_unlessDeleted body names h.1.2,
        rewriteBranches_eq_unlessDeleted rest names h.2, Statement.sitesBranches,
        Site.deletions_append]
      exact unlessDeleted_append _ _ _ _ _
termination_by structural branches => branches
end

theorem settled_of_update {target : Target} {level : List Expr} {edit : Edit} {s' : Statement}
    {names : List String} (h : (rewriter declared).rewrite (.update target level edit) = .ok s') :
    .globalObject ∉ s'.kinds ∧
      Site.deletions (⟨names, s'⟩ :: s'.sitesWithin names) = [] := by
  obtain ⟨level', inputs', hlevel, hinputs, hlowers⟩ := rewrite_update_eq_ok_iff.mp h
  have hkinds := globalObject_not_mem_of_mapM hlevel
  have hedit : .globalObject ∉ (edit.withInputs inputs').kinds := by
    rw [Edit.globalObject_not_mem_kinds, Edit.inputs_withInputs (length_of_mapM hinputs)]
    exact globalObject_not_mem_of_mapM hinputs
  generalize edit.withInputs inputs' = edit' at hedit hlowers
  cases hlowers with
  | saved hfield =>
      refine ⟨by simpa [Statement.kinds, Target.kinds] using ⟨hkinds, hedit⟩, ?_⟩
      cases level' with
      | nil =>
          cases edit' with
          | deleteField => exact absurd rfl (hfield rfl)
          | push _ | set _ => rfl
      | cons first rest => rfl
  | stored hname hkey =>
      cases edit' with
      | push _ | deleteField | set _ =>
          simp only [Edit.kinds, List.mem_cons, not_or] at hedit
          exact ⟨by simp [Edit.write, Statement.kinds, hkinds, hedit], rfl⟩

mutual
theorem settled_of_rewrite : (s : Statement) → (names : List String) → {s' : Statement} →
    (rewriter declared).rewrite s = .ok s' →
    .globalObject ∉ s'.kinds ∧ Site.deletions (⟨names, s'⟩ :: s'.sitesWithin names) = []
  | .ret value, names, s', h => by
      simp only [Rewriter.rewrite, bind_eq_ok, pure_eq_ok] at h
      obtain ⟨value', hvalue, rfl⟩ := h
      have hkinds := globalObject_not_mem_of_walkOption hvalue
      exact ⟨by simpa [Statement.kinds] using hkinds, rfl⟩
  | .save name value, names, s', h => by
      simp only [Rewriter.rewrite, bind_eq_ok, pure_eq_ok] at h
      obtain ⟨value', hvalue, rfl⟩ := h
      have hkinds := globalObject_not_mem_of_rewriteExpr hvalue
      exact ⟨by simpa [Statement.kinds] using hkinds, rfl⟩
  | .update target level edit, names, s', h => settled_of_update h
  | .choice branches, names, s', h => by
      simp only [Rewriter.rewrite, bind_eq_ok, pure_eq_ok] at h
      obtain ⟨branches', hbranches, rfl⟩ := h
      obtain ⟨hkinds, hdeletions⟩ := settled_of_rewriteBranches branches names hbranches
      exact ⟨by simpa [Statement.kinds] using hkinds, hdeletions⟩
  | .forEach source item body, names, s', h => by
      simp only [Rewriter.rewrite, bind_eq_ok, pure_eq_ok] at h
      obtain ⟨source', hsource, body', hbody, rfl⟩ := h
      have hvalue := globalObject_not_mem_of_rewriteExpr hsource
      obtain ⟨hkinds, hdeletions⟩ := settled_of_rewriteBody body (item :: names) hbody
      exact ⟨by simpa [Statement.kinds] using ⟨hvalue, hkinds⟩, hdeletions⟩
  | .call function args, names, s', h | .deleteKey store args, names, s', h => by
      simp only [Rewriter.rewrite, Rewriter.rewriteExprs, Rewriter.results_parts, bind_eq_ok,
        pure_eq_ok] at h
      obtain ⟨args', hargs, rfl⟩ := h
      have hkinds := globalObject_not_mem_of_mapM hargs
      exact ⟨by simpa [Statement.kinds] using hkinds, rfl⟩
  | .noop, names, s', h => by
      obtain rfl := Except.ok.inj h
      exact ⟨by simp [Statement.kinds], rfl⟩
  | .setKey store key value, names, s', h => by
      simp only [Rewriter.rewrite, Rewriter.rewriteExprs, Rewriter.results_parts, bind_eq_ok,
        pure_eq_ok] at h
      obtain ⟨key', hkey, value', hvalue, rfl⟩ := h
      have hkinds := globalObject_not_mem_of_mapM hkey
      have hkind := globalObject_not_mem_of_rewriteExpr hvalue
      exact ⟨by simpa [Statement.kinds] using ⟨hkinds, hkind⟩, rfl⟩
  | .pushAtKey store key values, names, s', h => by
      simp only [Rewriter.rewrite, Rewriter.rewriteExprs, Rewriter.results_parts, bind_eq_ok,
        pure_eq_ok] at h
      obtain ⟨key', hkey, values', hvalues, rfl⟩ := h
      have hkinds := globalObject_not_mem_of_mapM hkey
      have hpushed := globalObject_not_mem_of_mapM (pushed_eq_ok.mp hvalues)
      exact ⟨by simpa [Statement.kinds] using ⟨hkinds, hpushed⟩, rfl⟩
termination_by structural s => s

theorem settled_of_rewriteBody : (body : List Statement) → (names : List String) →
    {body' : List Statement} → (rewriter declared).rewriteBody body = .ok body' →
    .globalObject ∉ Statement.kindsList body' ∧
      Site.deletions (Statement.sitesBody names body') = []
  | [], names, body', h => by
      obtain rfl := Except.ok.inj h
      exact ⟨by simp [Statement.kindsList], rfl⟩
  | s :: rest, names, body', h => by
      simp only [Rewriter.rewriteBody, bind_eq_ok, pure_eq_ok] at h
      obtain ⟨s', hs, rest', hrest, rfl⟩ := h
      obtain ⟨hkinds, hdeletions⟩ := settled_of_rewrite s names hs
      obtain ⟨hothers, hmore⟩ := settled_of_rewriteBody rest (s'.declares ++ names) hrest
      refine ⟨by simpa [Statement.kindsList] using ⟨hkinds, hothers⟩, ?_⟩
      rw [Statement.sitesBody, Site.deletions_append, hdeletions, hmore, List.append_nil]
termination_by structural body => body

theorem settled_of_rewriteBranches : (branches : List (Guard × List Statement)) →
    (names : List String) → {branches' : List (Guard × List Statement)} →
    (rewriter declared).rewriteBranches branches = .ok branches' →
    .globalObject ∉ Statement.kindsBranches branches' ∧
      Site.deletions (Statement.sitesBranches names branches') = []
  | [], names, branches', h => by
      obtain rfl := Except.ok.inj h
      exact ⟨by simp [Statement.kindsBranches], rfl⟩
  | (guard, body) :: rest, names, branches', h => by
      simp only [Rewriter.rewriteBranches, bind_eq_ok, pure_eq_ok] at h
      obtain ⟨guard', hguard, body', hbody, rest', hrest, rfl⟩ := h
      have hcondition := globalObject_not_mem_of_rewriteGuard hguard
      obtain ⟨hkinds, hdeletions⟩ := settled_of_rewriteBody body names hbody
      obtain ⟨hothers, hmore⟩ := settled_of_rewriteBranches rest names hrest
      refine ⟨by simpa [Statement.kindsBranches] using ⟨hcondition, hkinds, hothers⟩, ?_⟩
      rw [Statement.sitesBranches, Site.deletions_append, hdeletions, hmore, List.append_nil]
termination_by structural branches => branches
end

end Lowering

namespace Function

variable {declared : Option NameSet} {f f' : Function}

theorem lower_eq_unlessDeleted (h : .globalObject ∉ Statement.kindsList f.body) :
    f.lower declared = Lowering.unlessDeleted (Site.deletions f.sites) f := by
  rw [lower, Lowering.rewriteBody_eq_unlessDeleted f.body _ h]
  exact Lowering.unlessDeleted_bind _ _ fun body => { f with body := body }

theorem settled_of_lower (h : f.lower declared = .ok f') :
    f'.inputs = f.inputs ∧ .globalObject ∉ Statement.kindsList f'.body ∧
      Site.deletions f'.sites = [] := by
  simp only [lower, bind_eq_ok, pure_eq_ok] at h
  obtain ⟨body', hbody, rfl⟩ := h
  exact ⟨rfl, Lowering.settled_of_rewriteBody f.body _ hbody⟩

theorem lower_of_lower (h : f.lower declared = .ok f') (other : Option NameSet) :
    f'.lower other = .ok f' := by
  obtain ⟨-, hkinds, hdeletions⟩ := settled_of_lower h
  rw [lower_eq_unlessDeleted hkinds, hdeletions]
  rfl

theorem mem_deletions {name : String} :
    name ∈ Site.deletions f.sites ↔ .update (.saved name) [] .deleteField ∈ f.statements := by
  simp only [Site.deletions, statements, List.mem_filterMap, List.mem_map,
    Statement.deleted?_eq_some]

theorem lower_of_lowered (h : .globalObject ∉ Statement.kindsList f.body) :
    ((∃ name, .update (.saved name) [] .deleteField ∈ f.statements) →
      ∃ fault, f.lower declared = .error fault ∧ fault.kind = .notAddressable) ∧
    ((∀ name, .update (.saved name) [] .deleteField ∉ f.statements) →
      f.lower declared = .ok f) := by
  rw [lower_eq_unlessDeleted h]
  simp only [← mem_deletions]
  cases Site.deletions f.sites with
  | nil =>
      refine ⟨?_, fun _ => rfl⟩
      rintro ⟨name, hname⟩
      cases hname
  | cons name rest =>
      refine ⟨fun _ => ⟨_, rfl, rfl⟩, fun hnone => ?_⟩
      exact absurd List.mem_cons_self (hnone name)

end Function

namespace Program

theorem lower_of_lower {p p' : Program} (h : p.lower = .ok p') : p'.lower = .ok p' := by
  simp only [lower, bind_eq_ok, pure_eq_ok] at h
  obtain ⟨functions', hfunctions, rfl⟩ := h
  have hself : ∀ entry ∈ functions'.entries,
      p.lowerFunction entry.1 entry.2 = .ok entry.2 := by
    intro entry hentry
    obtain ⟨source, -, -, hsource⟩ :=
      exists_of_forall₂ (NameMap.traverse_eq_ok_iff.mp hfunctions) entry hentry
    rw [lowerFunction] at hsource ⊢
    split at hsource
    · rename_i f' hf'
      obtain rfl := Except.ok.inj hsource
      rw [Function.lower_of_lower hf' p.declared]
    · cases hsource
  exact bind_eq_ok.mpr ⟨functions', NameMap.traverse_eq_self hself, rfl⟩

end Program

namespace Lowering

/-- What lowering gives has the inputs it had and no global object, and any further lowering leaves it
as it is. A function without global objects is lowered to itself, or refused if it deletes a whole
variable. So a program may as well be lowered before it is lowered, compiled or analyzed. -/
theorem lowered_once :
    (∀ (declared : Option NameSet) (f f' : Function), f.lower declared = .ok f' →
      f'.inputs = f.inputs ∧ (Statement.kindsList f'.body).count .globalObject = 0 ∧
        ∀ other, f'.lower other = .ok f') ∧
    (∀ (declared : Option NameSet) (f : Function),
      (Statement.kindsList f.body).count .globalObject = 0 →
      ((∃ name, .update (.saved name) [] .deleteField ∈ f.statements) →
        ∃ fault, f.lower declared = .error fault ∧ fault.kind = .notAddressable) ∧
      ((∀ name, .update (.saved name) [] .deleteField ∉ f.statements) →
        f.lower declared = .ok f)) ∧
    ∀ p p' : Program, p.lower = .ok p' →
      p'.lower = p.lower ∧ p'.compile = p.compile ∧ p'.analyze = p.analyze := by
  refine ⟨fun declared f f' h => ?_, fun declared f h => ?_, fun p p' h => ?_⟩
  · obtain ⟨hinputs, hkinds, -⟩ := Function.settled_of_lower h
    exact ⟨hinputs, List.count_eq_zero.mpr hkinds, Function.lower_of_lower h⟩
  · exact Function.lower_of_lowered (List.count_eq_zero.mp h)
  · have hagain := Program.lower_of_lower h
    refine ⟨hagain.trans h.symm, ?_, ?_⟩
    · rw [Program.compile, Program.compile, hagain, h]
    · rw [Program.analyze, Program.analyze, hagain, h]

/-- Accesses of all kinds, one of them in the key of another and one in a discarded operand. -/
def archive : Function where
  inputs := [⟨"id", default⟩]
  body :=
    [.forEach (.selection (.globalObject "log") [.keys (.globalObject "spare"), .saved "id"]) "row"
        [.update (.globalObject "rows") [.selection (.globalObject "names") [.saved "row"]]
          (.push [.fieldExists (.globalObject "users") (.saved "id")])],
      .ret (some (.keys (.globalObject "rows")))]

/-- A whole variable is deleted. -/
def forget : Function where
  inputs := [⟨"id", default⟩]
  body := [.choice [(.when (.bool true), [.update (.saved "id") [] .deleteField])]]

def archiving : Program :=
  ⟨Program.supportedVersion, .empty, NameMap.empty.insert "archive" archive⟩

theorem lowered_once_archive :
    ∃ f', archive.lower none = .ok f' ∧ f'.inputs.length = 1 ∧
      (Statement.kindsList archive.body).count .globalObject = 6 ∧
      (Statement.kindsList f'.body).count .globalObject = 0 ∧
      f'.lower (some .empty) = .ok f' ∧
      (∃ fault, forget.lower none = .error fault ∧ fault.kind = .notAddressable) ∧
      ∃ p', archiving.lower = .ok p' ∧ p'.lower = .ok p' ∧ p'.compile = archiving.compile ∧
        p'.analyze = archiving.analyze := by
  obtain ⟨hlowered, hplain, hprogram⟩ := lowered_once
  refine ⟨_, rfl, rfl, rfl, (hlowered none archive _ rfl).2.1, ?_, ?_, _, rfl,
    hprogram archiving _ rfl⟩
  · refine (hplain _ _ rfl).2 fun name hname => ?_
    cases Function.mem_deletions.mpr hname
  · exact (hplain none forget rfl).1 ⟨"id", Function.mem_deletions.mp List.mem_cons_self⟩

end Lowering

end StoredProcedure
