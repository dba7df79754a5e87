import StoredProcedure.Proofs.Label
import StoredProcedure.Proofs.LoweringStep

namespace StoredProcedure

/-- A computation that is refused because of a global object if `p` holds, and else gives a result
that has the property `P`. -/
inductive Decides {α : Type} (p : Prop) (P : α → Prop) : Except Fault α → Prop
  | ok {a : α} (hp : ¬ p) (ha : P a) : Decides p P (.ok a)
  | error {fault : Fault} (hp : p) (hkind : fault.kind = .abstractNode) : Decides p P (.error fault)

namespace Decides

variable {α β : Type} {p q : Prop} {P : α → Prop} {Q : β → Prop} {x : Except Fault α}

theorem congr (hx : Decides p P x) (h : q ↔ p) : Decides q P x :=
  propext h ▸ hx

theorem bind {f : α → Except Fault β} (hx : Decides p P x) (hf : ∀ a, P a → Decides q Q (f a)) :
    Decides (p ∨ q) Q (x >>= f) := by
  cases hx with
  | error hp hkind => exact .error (.inl hp) hkind
  | @ok a hp ha =>
      have hsecond := hf a ha
      change Decides _ _ (f a)
      generalize f a = y at hsecond
      cases hsecond with
      | error hq hkind => exact .error (.inr hq) hkind
      | ok hq hb => exact .ok (not_or.mpr ⟨hp, hq⟩) hb

theorem andReturn (hx : Decides p P x) (f : α → β) (hf : ∀ a, P a → Q (f a)) :
    Decides p Q (x >>= fun a => pure (f a)) := by
  cases hx with
  | error hp hkind => exact .error hp hkind
  | ok hp ha => exact .ok hp (hf _ ha)

theorem mapM {f : α → Except Fault β} {p : α → Prop} {R : α → β → Prop} {as : List α}
    (h : ∀ a ∈ as, Decides (p a) (R a) (f a)) :
    Decides (∃ a ∈ as, p a) (List.Forall₂ R as) (as.mapM f) := by
  induction as with
  | nil => exact .ok (by simp) .nil
  | cons a as ih =>
      rw [List.forall_mem_cons] at h
      rw [List.mapM_cons]
      refine (h.1.bind fun b hb => (ih h.2).andReturn (b :: ·) fun bs hbs => ?_).congr (by simp)
      exact .cons hb hbs

theorem exists_eq_ok (hx : Decides p P x) (hp : ¬ p) : ∃ a, x = .ok a ∧ P a := by
  cases hx with
  | ok _ ha => exact ⟨_, rfl, ha⟩
  | error hp' => exact absurd hp' hp

theorem exists_eq_error (hx : Decides p P x) (hp : p) :
    ∃ fault, x = .error fault ∧ fault.kind = .abstractNode := by
  cases hx with
  | ok hp' => exact absurd hp hp'
  | error _ hkind => exact ⟨_, rfl, hkind⟩

end Decides

variable {r : String → String}

theorem Label.rename_expr {head : Expr} (h : head.kind ≠ .saved) :
    (expr head).rename r = expr head := by
  cases head with
  | saved name => exact absurd rfl h
  | _ => rfl

namespace Expr

/-- Only the variables that are read have other names. -/
def RenamedBy (r : String → String) (e out : Expr) : Prop :=
  out.labels = e.labels.map (Label.rename r)

theorem labels_of_forall₂ {es outs : List Expr} (h : List.Forall₂ (RenamedBy r) es outs) :
    outs.flatMap labels = (es.flatMap labels).map (Label.rename r) := by
  induction h with
  | nil => rfl
  | cons hout _ ih => rw [List.flatMap_cons, List.flatMap_cons, List.map_append, hout, ih]

theorem RenamedBy.saved (r : String → String) (name : String) :
    (saved name).RenamedBy r (.saved (r name)) := by
  rw [RenamedBy, labels_eq, labels_eq]
  rfl

theorem RenamedBy.withChildren {e : Expr} {outs : List Expr} (he : e.kind ≠ .saved)
    (h : List.Forall₂ (RenamedBy r) e.children outs) : e.RenamedBy r (e.withChildren outs) := by
  have hlength := h.length_eq.symm
  have hlabel : (Label.expr e.head).rename r = .expr e.head := by
    apply Label.rename_expr
    rwa [head, kind_withChildren]
  rw [RenamedBy, labels_eq, labels_eq e, head_withChildren hlength, children_withChildren hlength,
    labels_of_forall₂ h, List.map_cons, hlabel]

end Expr

theorem Edit.head_withInputs (edit : Edit) {es : List Expr} (h : es.length = edit.inputs.length) :
    (edit.withInputs es).head = edit.head := by
  cases edit with
  | push values => exact congrArg push (blanks_eq h.symm)
  | deleteField => rfl
  | set value =>
      obtain ⟨value', rfl⟩ := List.length_eq_one_iff.mp h
      rfl

namespace Statement

def RenamedBy (r : String → String) (s out : Statement) : Prop :=
  out.labels = s.labels.map (Label.rename r)

structure RenamedBodyBy (r : String → String) (body outs : List Statement) : Prop where
  length : outs.length = body.length
  labels : labelsBody outs = (labelsBody body).map (Label.rename r)

structure RenamedBranchesBy (r : String → String) (branches outs : List Branch) : Prop where
  length : outs.length = branches.length
  labels : labelsBranches outs = (labelsBranches branches).map (Label.rename r)

theorem RenamedBy.of_head {s out : Statement} (hs : s.isSimple = true) (hhead : out.head = s.head)
    (h : List.Forall₂ (Expr.RenamedBy r) s.exprs out.exprs) : s.RenamedBy r out := by
  have hout : out.isSimple = true := by rw [← isSimple_head, hhead, isSimple_head, hs]
  rw [RenamedBy, labels_of_isSimple hs, labels_of_isSimple hout, hhead, Expr.labels_of_forall₂ h]
  rfl

/-- The variables that are read, in the order of the nodes. -/
def variablesRead (body : List Statement) : List String :=
  (labelsBody body).filterMap Label.read?

theorem RenamedBodyBy.count_kinds {body outs : List Statement} (h : RenamedBodyBy r body outs)
    (kind : Kind) : (kindsList outs).count kind = (kindsList body).count kind := by
  rw [(perm_kindsBody outs).count_eq, (perm_kindsBody body).count_eq, h.labels, List.flatMap_map,
    funext (Label.kinds_rename r)]

theorem RenamedBodyBy.variablesRead {body outs : List Statement} (h : RenamedBodyBy r body outs) :
    variablesRead outs = (variablesRead body).map r := by
  rw [Statement.variablesRead, Statement.variablesRead, h.labels, List.filterMap_map,
    List.map_filterMap]
  exact congrArg (List.filterMap · _) (funext (Label.read?_rename r))

theorem RenamedBodyBy.trans {r s : String → String} {body middle outs : List Statement}
    (h : RenamedBodyBy r body middle) (h' : RenamedBodyBy s middle outs) :
    RenamedBodyBy (s ∘ r) body outs where
  length := h'.length.trans h.length
  labels := by
    rw [h'.labels, h.labels, List.map_map]
    exact congrArg (List.map · _) (funext (Label.rename_rename r s))

theorem RenamedBodyBy.unique {body outs others : List Statement} (h : RenamedBodyBy r body outs)
    (h' : RenamedBodyBy r body others) : outs = others :=
  labelsBody_injective (h.labels.trans h'.labels.symm)

theorem RenamedBodyBy.id (body : List Statement) : RenamedBodyBy id body body :=
  ⟨rfl, by rw [funext Label.rename_id, List.map_id']⟩

end Statement

namespace Rewriter

theorem walk_eq_rebuild_of_default {w : Rewriter} (hselection : w.selection = identity.selection)
    (hfieldExists : w.fieldExists = identity.fieldExists) (hkeys : w.keys = identity.keys)
    (harray : w.array = identity.array) {e : Expr} (he : e.kind ≠ .globalObject) :
    w.walk e = w.rebuild e := by
  cases e with
  | selection root level => rw [walk, hselection, rebuild_selection]; rfl
  | fieldExists value field => rw [walk, hfieldExists, rebuild_fieldExists]; rfl
  | keys source => rw [walk, hkeys, rebuild_keys]; rfl
  | array values => rw [walk, harray, rebuild_array]; rfl
  | globalObject name => exact absurd rfl he
  | _ => exact w.walk_eq_rebuild id

/-- A rewriter that gives other names to the variables that are read, and has no other rule. -/
structure Renames (w : Rewriter) (r : String → String) : Prop where
  saved (name : String) : w.rewriteExpr (.saved name) = .ok (.saved (r name))
  globalObject (name : String) :
    w.rewriteExpr (.globalObject name) = .error (.globalWithoutRule name)
  node {e : Expr} (hsaved : e.kind ≠ .saved) (hglobal : e.kind ≠ .globalObject) :
    w.rewriteExpr e = w.rebuild e
  pushed : w.pushed = identity.pushed
  update : w.update = identity.update

theorem renames_identity : identity.Renames id where
  saved _ := rfl
  globalObject _ := rfl
  node _ hglobal := walk_eq_rebuild_of_default rfl rfl rfl rfl hglobal
  pushed := rfl
  update := rfl

theorem renames_renameSaved (r : String → String) : (renameSaved r).Renames r where
  saved _ := rfl
  globalObject _ := rfl
  node {e} hsaved hglobal := by
    have hwalk : (renameSaved r).rewriteExpr e = (renameSaved r).walk e := by
      cases e with
      | saved name => exact absurd rfl hsaved
      | _ => rfl
    exact hwalk.trans (walk_eq_rebuild_of_default (w := renameSaved r) rfl rfl rfl rfl hglobal)
  pushed := rfl
  update := rfl

namespace Renames

variable {w : Rewriter}

theorem decides_rewriteExpr (h : w.Renames r) (e : Expr) :
    Decides (.globalObject ∈ e.kinds) (e.RenamedBy r) (w.rewriteExpr e) := by
  induction e using Expr.induction_on_children with
  | node e ih =>
      by_cases hsaved : e.kind = .saved
      · obtain ⟨name, rfl⟩ : ∃ name, e = .saved name := by
          cases e with
          | saved name => exact ⟨name, rfl⟩
          | _ => cases hsaved
        rw [h.saved]
        exact .ok (by simp [Expr.kinds]) (.saved r name)
      by_cases hglobal : e.kind = .globalObject
      · obtain ⟨name, rfl⟩ : ∃ name, e = .globalObject name := by
          cases e with
          | globalObject name => exact ⟨name, rfl⟩
          | _ => cases hglobal
        rw [h.globalObject]
        exact .error (by simp [Expr.kinds]) rfl
      rw [h.node hsaved hglobal]
      refine ((Decides.mapM ih).andReturn _ fun outs houts => .withChildren hsaved houts).congr ?_
      rw [Expr.mem_kinds (by decide), or_iff_right (Ne.symm hglobal)]

theorem decides_mapM (h : w.Renames r) (es : List Expr) :
    Decides (.globalObject ∈ Expr.kindsList es) (List.Forall₂ (Expr.RenamedBy r) es)
      (es.mapM w.rewriteExpr) :=
  (Decides.mapM fun e _ => h.decides_rewriteExpr e).congr Expr.mem_kindsList

theorem decides_rewriteGuard (h : w.Renames r) (guard : Guard) :
    Decides (.globalObject ∈ guard.kinds) (fun out => out.head = guard.head ∧
      List.Forall₂ (Expr.RenamedBy r) guard.conditions out.conditions) (w.rewriteGuard guard) := by
  cases guard with
  | when condition =>
      refine ((h.decides_rewriteExpr condition).andReturn Guard.when fun out hout => ?_).congr
        (by simp [Guard.kinds])
      exact ⟨rfl, .cons hout .nil⟩
  | otherwise | lastly => exact .ok (by simp [Guard.kinds]) ⟨rfl, .nil⟩

theorem pushed_parts (h : w.Renames r) (es : List Expr) :
    w.pushed (w.parts es) = es.mapM w.rewriteExpr := by
  rw [h.pushed]
  exact w.results_parts es

theorem rewrite_update_saved (h : w.Renames r) (name : String) (level : List Expr) (edit : Edit) :
    w.rewrite (.update (.saved name) level edit) = do
      let level ← level.mapM w.rewriteExpr
      return .update (.saved name) level (edit.withInputs (← edit.inputs.mapM w.rewriteExpr)) := by
  rw [rewrite, h.update, ← w.results_parts]
  cases edit with
  | push values =>
      rw [rewriteEdit, h.pushed_parts]
      rfl
  | deleteField => rfl
  | set value =>
      simp only [Edit.inputs, List.mapM_cons, List.mapM_nil, bind_assoc, pure_bind]
      rfl

theorem decides_update (h : w.Renames r) (target : Target) (level : List Expr) (edit : Edit) :
    Decides (.globalObject ∈ (Statement.update target level edit).kinds)
      ((Statement.update target level edit).RenamedBy r) (w.rewrite (.update target level edit)) := by
  cases target with
  | globalObject name =>
      rw [rewrite, h.update]
      exact .error (by simp [Statement.kinds, Target.kinds]) rfl
  | saved name =>
      rw [h.rewrite_update_saved]
      refine ((h.decides_mapM level).bind fun level' hlevel =>
        (h.decides_mapM edit.inputs).andReturn _ fun inputs hinputs => ?_).congr ?_
      · have hlength := hinputs.length_eq.symm
        apply Statement.RenamedBy.of_head rfl
        · rw [Statement.head, Statement.head, blanks_eq hlevel.length_eq, edit.head_withInputs hlength]
        · rw [Statement.exprs, Statement.exprs, Edit.inputs_withInputs hlength]
          exact List.rel_append hlevel hinputs
      · cases edit <;> simp [Statement.kinds, Target.kinds, Edit.kinds, Edit.inputs, Expr.kindsList]

mutual
theorem decides_rewrite (h : w.Renames r) : (s : Statement) →
    Decides (.globalObject ∈ s.kinds) (s.RenamedBy r) (w.rewrite s)
  | .ret none => .ok (by simp [Statement.kinds, Expr.kindsOption]) rfl
  | .ret (some value) => by
      have hret : w.rewrite (.ret (some value)) =
          w.rewriteExpr value >>= fun out => pure (.ret (some out)) := by
        simp only [rewrite, walkOption, bind_assoc, pure_bind]
        rfl
      rw [hret]
      refine ((h.decides_rewriteExpr value).andReturn _ fun out hout => ?_).congr
        (by simp [Statement.kinds, Expr.kindsOption])
      exact .of_head rfl rfl (.cons hout .nil)
  | .save name value => by
      refine ((h.decides_rewriteExpr value).andReturn _ fun out hout => ?_).congr
        (by simp [Statement.kinds])
      exact .of_head rfl rfl (.cons hout .nil)
  | .update target level edit => h.decides_update target level edit
  | .choice branches => by
      refine ((h.decides_rewriteBranches branches).andReturn _ fun outs houts => ?_).congr
        (by simp [Statement.kinds])
      rw [Statement.RenamedBy, Statement.labels, Statement.labels, List.map_cons, houts.labels]
      rw [Statement.head, Statement.head, blanks_eq houts.length.symm]
      rfl
  | .forEach source item body => by
      refine ((h.decides_rewriteExpr source).bind fun out hout =>
        (h.decides_rewriteBody body).andReturn _ fun outs houts => ?_).congr
        (by simp [Statement.kinds])
      rw [Statement.RenamedBy, Statement.labels, Statement.labels, List.cons_append, List.cons_append,
        List.map_cons, List.map_append, houts.labels, hout]
      rw [Statement.head, Statement.head, blanks_eq houts.length.symm]
      rfl
  | .call function args => by
      rw [rewrite, rewriteExprs, results_parts]
      refine ((h.decides_mapM args).andReturn _ fun outs houts => ?_).congr
        (by simp [Statement.kinds])
      exact .of_head rfl (by rw [Statement.head, Statement.head, blanks_eq houts.length_eq]) houts
  | .noop => .ok (by simp [Statement.kinds]) rfl
  | .setKey store key value => by
      rw [rewrite, rewriteExprs, results_parts]
      refine ((h.decides_mapM key).bind fun outs houts =>
        (h.decides_rewriteExpr value).andReturn _ fun out hout => ?_).congr
        (by simp [Statement.kinds])
      exact .of_head rfl (by rw [Statement.head, Statement.head, blanks_eq houts.length_eq])
        (List.rel_append houts (.cons hout .nil))
  | .deleteKey store key => by
      rw [rewrite, rewriteExprs, results_parts]
      refine ((h.decides_mapM key).andReturn _ fun outs houts => ?_).congr
        (by simp [Statement.kinds])
      exact .of_head rfl (by rw [Statement.head, Statement.head, blanks_eq houts.length_eq]) houts
  | .pushAtKey store key values => by
      rw [rewrite, rewriteExprs, results_parts, h.pushed_parts]
      refine ((h.decides_mapM key).bind fun outs houts =>
        (h.decides_mapM values).andReturn _ fun outs' houts' => ?_).congr
        (by simp [Statement.kinds])
      apply Statement.RenamedBy.of_head rfl
      · rw [Statement.head, Statement.head, blanks_eq houts.length_eq, blanks_eq houts'.length_eq]
      · exact List.rel_append houts houts'
termination_by structural s => s

theorem decides_rewriteBody (h : w.Renames r) : (body : List Statement) →
    Decides (.globalObject ∈ Statement.kindsList body) (Statement.RenamedBodyBy r body)
      (w.rewriteBody body)
  | [] => .ok (by simp [Statement.kindsList]) ⟨rfl, rfl⟩
  | s :: rest => by
      refine ((h.decides_rewrite s).bind fun out hout =>
        (h.decides_rewriteBody rest).andReturn _ fun outs houts => ?_).congr
        (by simp [Statement.kindsList])
      refine ⟨congrArg (· + 1) houts.length, ?_⟩
      rw [Statement.labelsBody, Statement.labelsBody, List.map_append, hout, houts.labels]
termination_by structural body => body

theorem decides_rewriteBranches (h : w.Renames r) : (branches : List (Guard × List Statement)) →
    Decides (.globalObject ∈ Statement.kindsBranches branches)
      (Statement.RenamedBranchesBy r branches) (w.rewriteBranches branches)
  | [] => .ok (by simp [Statement.kindsBranches]) ⟨rfl, rfl⟩
  | (guard, body) :: rest => by
      refine ((h.decides_rewriteGuard guard).bind fun out hout =>
        (h.decides_rewriteBody body).bind fun outs houts =>
          (h.decides_rewriteBranches rest).andReturn _ fun more hmore => ?_).congr
        (by simp [Statement.kindsBranches])
      refine ⟨congrArg (· + 1) hmore.length, ?_⟩
      simp only [Statement.labelsBranches, List.map_append, List.map_cons, houts.labels,
        hmore.labels, hout.1, Expr.labels_of_forall₂ hout.2, blanks_eq houts.length.symm]
      rfl
termination_by structural branches => branches
end

end Renames

/-- Without rules of its own a rewriter leaves statements as they are, and is refused exactly if
there is a global object in them. -/
theorem rewriteBody_identity (body : List Statement) :
    (∀ out, identity.rewriteBody body = .ok out ↔
      (Statement.kindsList body).count .globalObject = 0 ∧ out = body) ∧
    ((∃ fault, identity.rewriteBody body = .error fault ∧ fault.kind = .abstractNode) ↔
      (Statement.kindsList body).count .globalObject ≠ 0) := by
  have hdecides := renames_identity.decides_rewriteBody body
  rw [Ne, List.count_eq_zero]
  by_cases hglobal : .globalObject ∈ Statement.kindsList body
  · obtain ⟨fault, hfault, hkind⟩ := hdecides.exists_eq_error hglobal
    rw [hfault]
    constructor
    · intro out
      constructor
      · intro h
        cases h
      · intro h
        exact absurd hglobal h.1
    · exact iff_of_true ⟨fault, rfl, hkind⟩ (not_not_intro hglobal)
  · obtain ⟨out, hout, hrenamed⟩ := hdecides.exists_eq_ok hglobal
    obtain rfl := hrenamed.unique (.id body)
    rw [hout]
    constructor
    · intro other
      rw [Except.ok.injEq, eq_comm]
      exact (and_iff_right hglobal).symm
    · refine iff_of_false ?_ (not_not_intro hglobal)
      rintro ⟨fault, h, -⟩
      cases h

/-- Renaming the variables that are read reaches each of them once and changes nothing else. -/
theorem rewriteBody_renameSaved (r : String → String) (body : List Statement)
    (h : (Statement.kindsList body).count .globalObject = 0) :
    ∃ out, (renameSaved r).rewriteBody body = .ok out ∧
      (∀ kind, (Statement.kindsList out).count kind = (Statement.kindsList body).count kind) ∧
      Statement.variablesRead out = (Statement.variablesRead body).map r ∧
      Statement.labelsBody out = (Statement.labelsBody body).map (Label.rename r) ∧
      (∀ other, Statement.labelsBody other = Statement.labelsBody out → other = out) ∧
      ∀ s, (renameSaved s).rewriteBody out = (renameSaved (s ∘ r)).rewriteBody body := by
  obtain ⟨out, hout, hrenamed⟩ :=
    ((renames_renameSaved r).decides_rewriteBody body).exists_eq_ok (List.count_eq_zero.mp h)
  refine ⟨out, hout, hrenamed.count_kinds, hrenamed.variablesRead, hrenamed.labels,
    fun other => Statement.labelsBody_injective, fun s => ?_⟩
  have hconcrete : (Statement.kindsList out).count .globalObject = 0 :=
    (hrenamed.count_kinds .globalObject).trans h
  obtain ⟨twice, htwice, hrenamed'⟩ :=
    ((renames_renameSaved s).decides_rewriteBody out).exists_eq_ok (List.count_eq_zero.mp hconcrete)
  obtain ⟨once, honce, hrenamed''⟩ :=
    ((renames_renameSaved (s ∘ r)).decides_rewriteBody body).exists_eq_ok (List.count_eq_zero.mp h)
  rw [htwice, honce, (hrenamed.trans hrenamed').unique hrenamed'']

/-- The variable that is updated, the one that is declared and the item of the loop keep their
names. -/
theorem rewriteBody_renameSaved_nested :
    let body : List Statement := [.save "x" (.saved "a"),
      .forEach (.saved "x") "i" [.update (.saved "x") [.saved "i"] (.push [.saved "a"])]]
    let out : List Statement := [.save "x" (.saved "v"),
      .forEach (.saved "v") "i" [.update (.saved "x") [.saved "v"] (.push [.saved "v"])]]
    (Statement.kindsList body).count .globalObject = 0 ∧
      (renameSaved fun _ => "v").rewriteBody body = .ok out ∧
      Statement.variablesRead out = (Statement.variablesRead body).map fun _ => "v" := by
  intro body out
  have hconcrete : (Statement.kindsList body).count .globalObject = 0 := by decide
  obtain ⟨renamed, hrenamed, -, hread, -⟩ :=
    rewriteBody_renameSaved (fun _ => "v") body hconcrete
  obtain rfl : renamed = out := Except.ok.inj (hrenamed.symm.trans rfl)
  exact ⟨hconcrete, hrenamed, hread⟩

end Rewriter

end StoredProcedure
