import StoredProcedure.Proofs.LoweringStep

namespace StoredProcedure

/-- How a global object stands in the node above it. Where it is updated, the level matters too. -/
inductive Position where
  | value
  | selected
  | asked
  | listed
  | updated (level : List Expr)

/-- A global object and how it stands. -/
structure Reference where
  name : String
  position : Position

namespace Expr

/-- The children that lowering looks at, and how they stand. If the keys of a global object are
selected, the operand of `keys` is discarded. -/
def places : Expr → List (Position × Expr)
  | .selection (.globalObject name) (.keys _ :: rest) =>
      (.selected, .globalObject name) :: rest.map fun e => (.value, e)
  | .selection root level => (.selected, root) :: level.map fun e => (.value, e)
  | .fieldExists value field => [(.asked, value), (.value, field)]
  | .keys source => [(.listed, source)]
  | e => e.children.map fun e => (.value, e)

theorem map_snd_places_sublist (e : Expr) : (e.places.map Prod.snd).Sublist e.children := by
  fun_cases places e with
  | case1 name source rest => simp [children, Function.comp_def]
  | case2 root level _ => simp [children, Function.comp_def]
  | case3 value field => exact List.Sublist.refl _
  | case4 source => exact List.Sublist.refl _
  | case5 e _ _ _ _ => simp [Function.comp_def]

theorem mem_children_of_mem_places {e : Expr} {place : Position × Expr} (h : place ∈ e.places) :
    place.2 ∈ e.children :=
  (map_snd_places_sublist e).subset (List.mem_map_of_mem h)

/-- All expressions inside an expression that lowering looks at, each before those inside it. -/
def kept (e : Expr) : List (Position × Expr) :=
  e.places.attach.flatMap fun place => place.1 :: place.1.2.kept
termination_by e
decreasing_by exact sizeOf_lt_of_mem_children (mem_children_of_mem_places place.2)

theorem kept_eq (e : Expr) : e.kept = e.places.flatMap fun place => place :: place.2.kept := by
  rw [kept, List.flatMap_subtype (g := fun place => place :: place.2.kept) fun _ _ => rfl,
    List.unattach_attach]

/-- The references to global objects in an expression that stands at a position. -/
def references (position : Position) (e : Expr) : List Reference :=
  ((position, e) :: e.kept).filterMap fun place =>
    place.2.global?.map fun name => ⟨name, place.1⟩

theorem references_eq (position : Position) (e : Expr) :
    e.references position = (e.global?.map fun name => ⟨name, position⟩).toList ++
      e.places.flatMap fun place => place.2.references place.1 := by
  rw [references, kept_eq, List.filterMap_cons, List.filterMap_flatMap]
  cases e.global? <;> rfl

end Expr

/-- The references to global objects in a statement itself, not in a statement inside it. -/
def Statement.references : Statement → List Reference
  | .update (.globalObject name) level edit =>
      ⟨name, .updated level⟩ :: (level ++ edit.inputs).flatMap (Expr.references .value)
  | s => s.exprs.flatMap (Expr.references .value)

def Function.references (f : Function) : List Reference :=
  f.statements.flatMap Statement.references

/-- A reference that can be lowered: an access to a declared global object, by at least one key if it
is an update. -/
def Reference.Allowed (declared : Option NameSet) (r : Reference) : Prop :=
  (r.position ≠ .value ∧ r.position ≠ .updated []) ∧ Lowering.Declared declared r.name

theorem Reference.allowed_updated {declared : Option NameSet} {name : String} {level : List Expr} :
    Reference.Allowed declared ⟨name, .updated level⟩ ↔
      level ≠ [] ∧ Lowering.Declared declared name := by
  simp [Allowed]

namespace Lowering

/-- A child that does not prevent the lowering of the node above it. -/
def Passes (declared : Option NameSet) (place : Position × Expr) : Prop :=
  match place.2.global? with
  | some name => Reference.Allowed declared ⟨name, place.1⟩
  | none => ∃ e', (rewriter declared).rewriteExpr place.2 = .ok e'

variable {declared : Option NameSet}

theorem passes_of_global?_eq_none {position : Position} {e : Expr} (h : e.global? = none) :
    Passes declared (position, e) ↔ ∃ e', (rewriter declared).rewriteExpr e = .ok e' := by
  rw [Passes, h]

theorem passes_value {e : Expr} :
    Passes declared (.value, e) ↔ ∃ e', (rewriter declared).rewriteExpr e = .ok e' := by
  cases h : e.global? with
  | none => exact passes_of_global?_eq_none h
  | some name =>
      obtain rfl := Expr.global?_eq_some.mp h
      simp [Passes, Expr.global?, Reference.Allowed, rewriteExpr_global]

theorem forall_passes_values {es : List Expr} :
    (∀ place ∈ es.map fun e => (.value, e), Passes declared place) ↔
      ∃ es', es.mapM (rewriter declared).rewriteExpr = .ok es' := by
  simp only [exists_mapM_iff, List.forall_mem_map, passes_value]

theorem passes_accessed {name : String} {position : Position} (hvalue : position ≠ .value)
    (hupdated : position ≠ .updated []) :
    Passes declared (position, .globalObject name) ↔ Declared declared name := by
  simp [Passes, Expr.global?, Reference.Allowed, hvalue, hupdated]

theorem forall_passes_of_accessed?_eq_none {e : Expr} (haccess : e.accessed? = none) :
    (∀ place ∈ e.places, Passes declared place) ↔
      ∃ es, e.children.mapM (rewriter declared).rewriteExpr = .ok es := by
  rw [exists_mapM_iff]
  cases e with
  | selection root level =>
      have hplaces : (Expr.selection root level).places =
          (.selected, root) :: level.map fun e => (.value, e) := by
        cases root with
        | globalObject name => cases haccess
        | _ => rfl
      rw [hplaces, List.forall_mem_cons, passes_of_global?_eq_none haccess, forall_passes_values,
        exists_mapM_iff, Expr.children, List.forall_mem_cons]
  | fieldExists value field =>
      simp [Expr.places, Expr.children, passes_of_global?_eq_none haccess, passes_value]
  | keys source => simp [Expr.places, Expr.children, passes_of_global?_eq_none haccess]
  | _ => exact forall_passes_values.trans exists_mapM_iff

theorem exists_selected_iff {name : String} {level : List Expr} :
    (∃ e', (rewriter declared).rewriteExpr (.selection (.globalObject name) level) = .ok e') ↔
      ∀ place ∈ (Expr.selection (.globalObject name) level).places, Passes declared place := by
  have hroot : Passes declared (.selected, .globalObject name) ↔ Declared declared name :=
    passes_accessed (by simp) (by simp)
  rcases level with _ | ⟨first, rest⟩
  · have hwhole : (rewriter declared).rewriteExpr (.selection (.globalObject name) []) = do
        return .wholeObject (← check declared name) := rfl
    simp only [hwhole, exists_bind_eq_ok, exists_pure_eq_ok, and_true, exists_check_iff]
    simp [Expr.places, hroot]
  · by_cases hfirst : first.kind = .keys
    · obtain ⟨source, rfl⟩ := Expr.eq_keys_of_kind hfirst
      rw [rewriteExpr_selectedAmongKeys, Expr.places, List.forall_mem_cons, hroot,
        forall_passes_values]
      cases rest with
      | nil =>
          simp only [List.isEmpty_nil, if_true, exists_bind_eq_ok, exists_pure_eq_ok, and_true,
            exists_check_iff, List.mapM_nil]
      | cons second rest =>
          simp only [List.isEmpty_cons, if_neg Bool.false_ne_true, exists_bind_eq_ok,
            exists_pure_eq_ok, and_true, exists_and_right, exists_check_iff]
    · have hplaces : (Expr.selection (.globalObject name) (first :: rest)).places =
          (.selected, .globalObject name) :: (first :: rest).map fun e => (.value, e) := by
        cases first with
        | keys source => exact absurd rfl hfirst
        | _ => rfl
      rw [rewriteExpr_selectedValue name hfirst, hplaces, List.forall_mem_cons, hroot,
        forall_passes_values]
      simp only [exists_bind_eq_ok, exists_pure_eq_ok, and_true, exists_and_right, exists_check_iff]

theorem exists_rewriteExpr_iff_places {e : Expr} (hself : e.global? = none) :
    (∃ e', (rewriter declared).rewriteExpr e = .ok e') ↔
      ∀ place ∈ e.places, Passes declared place := by
  cases haccess : e.accessed? with
  | none =>
      rw [forall_passes_of_accessed?_eq_none haccess]
      simp only [rewriteExpr_eq_ok_iff_rebuild hself haccess, Rewriter.rebuild, exists_bind_eq_ok,
        exists_pure_eq_ok, and_true]
  | some name =>
      rcases Expr.accessed?_eq_some haccess with ⟨level, rfl⟩ | ⟨field, rfl⟩ | rfl
      · exact exists_selected_iff
      · have hasked : (rewriter declared).rewriteExpr (.fieldExists (.globalObject name) field) = do
            let store ← check declared name
            return .keyExists store (← (rewriter declared).rewriteExpr field) := rfl
        simp only [hasked, exists_bind_eq_ok, exists_pure_eq_ok, and_true, exists_and_right,
          exists_check_iff]
        simp [Expr.places, passes_accessed, passes_value]
      · have hlisted : (rewriter declared).rewriteExpr (.keys (.globalObject name)) = do
            return .keysOfObject (← check declared name) := rfl
        simp only [hlisted, exists_bind_eq_ok, exists_pure_eq_ok, and_true, exists_check_iff]
        simp [Expr.places, passes_accessed]

theorem passes_iff (e : Expr) : ∀ position,
    Passes declared (position, e) ↔ ∀ r ∈ e.references position, r.Allowed declared := by
  induction e using Expr.induction_on_children with
  | node e ih =>
      intro position
      cases hself : e.global? with
      | some name =>
          obtain rfl := Expr.global?_eq_some.mp hself
          rw [Expr.references_eq]
          simp [Passes, Expr.global?, Expr.places, Expr.children]
      | none =>
          rw [passes_of_global?_eq_none hself, exists_rewriteExpr_iff_places hself,
            Expr.references_eq, hself]
          simp only [Option.map_none, Option.toList_none, List.nil_append, List.mem_flatMap,
            forall_exists_index, and_imp]
          constructor
          · intro h r place hplace hr
            exact (ih _ (Expr.mem_children_of_mem_places hplace) place.1).mp (h place hplace) r hr
          · intro h place hplace
            exact (ih _ (Expr.mem_children_of_mem_places hplace) place.1).mpr
              fun r hr => h r place hplace hr

/-- An expression can be lowered exactly if all references in it can. -/
theorem exists_rewriteExpr_iff {e : Expr} :
    (∃ e', (rewriter declared).rewriteExpr e = .ok e') ↔
      ∀ r ∈ e.references .value, r.Allowed declared := by
  rw [← passes_value, passes_iff]

theorem forall_references_iff {es : List Expr} :
    (∀ r ∈ es.flatMap (Expr.references .value), r.Allowed declared) ↔
      ∃ es', es.mapM (rewriter declared).rewriteExpr = .ok es' := by
  simp only [exists_mapM_iff, exists_rewriteExpr_iff, List.mem_flatMap, forall_exists_index,
    and_imp]
  constructor
  · intro h e he r hr
    exact h r e he hr
  · intro h r e he hr
    exact h e he r hr

theorem exists_pushed_iff {es : List Expr} :
    (∃ es', (rewriter declared).pushed ((rewriter declared).parts es) = .ok es') ↔
      ∃ es', es.mapM (rewriter declared).rewriteExpr = .ok es' :=
  exists_congr fun _ => pushed_eq_ok

end Lowering

/-- A statement that can be lowered, the statements inside it apart. -/
def Statement.Lowerable (declared : Option NameSet) (s : Statement) : Prop :=
  (∀ r ∈ s.references, r.Allowed declared) ∧ ∀ name, s ≠ .update (.saved name) [] .deleteField

namespace Lowering

variable {declared : Option NameSet}

theorem exists_update_iff (target : Target) (level : List Expr) (edit : Edit) :
    (∃ s', (rewriter declared).rewrite (.update target level edit) = .ok s') ↔
      (Statement.update target level edit).Lowerable declared := by
  rw [rewrite_update]
  cases target with
  | saved name =>
      cases edit with
      | deleteField =>
          simp only [update, Rewriter.rewriteEdit, exists_bind_eq_ok, exists_pure_eq_ok, and_true,
            exists_and_right, exists_requireField_iff, Rewriter.results_parts,
            Statement.Lowerable, Statement.references, Statement.exprs, forall_references_iff]
          simp [Rewriter.parts_eq, Edit.inputs, and_comm]
      | push _ | set _ =>
          simp only [update, Rewriter.rewriteEdit, exists_bind_eq_ok, exists_pure_eq_ok, and_true,
            exists_and_right, exists_pushed_iff, Rewriter.results_parts, exists_mapM_iff,
            Statement.Lowerable, Statement.references, Statement.exprs, forall_references_iff]
          simp [Edit.inputs, or_imp, forall_and]
  | globalObject name =>
      cases edit with
      | deleteField | push _ | set _ =>
          simp only [update, Rewriter.rewriteEdit, exists_bind_eq_ok, exists_pure_eq_ok, and_true,
            exists_and_right, exists_check_iff, exists_requireKey_iff, exists_pushed_iff,
            Rewriter.results_parts, exists_mapM_iff, Statement.Lowerable, Statement.references,
            forall_references_iff, List.forall_mem_cons, Reference.allowed_updated]
          simp [Rewriter.parts_eq, Edit.inputs, or_imp, forall_and, and_assoc, and_left_comm]

theorem exists_rewriteGuard_iff (guard : Guard) :
    (∃ guard', (rewriter declared).rewriteGuard guard = .ok guard') ↔
      ∀ e ∈ guard.conditions, ∀ r ∈ e.references .value, r.Allowed declared := by
  cases guard with
  | when condition =>
      simp only [Rewriter.rewriteGuard, exists_bind_eq_ok, exists_pure_eq_ok, and_true,
        exists_rewriteExpr_iff]
      simp [Guard.conditions]
  | otherwise | lastly => simp [Rewriter.rewriteGuard, Guard.conditions]

mutual
theorem exists_rewrite_iff : (s : Statement) → (names : List String) →
    ((∃ s', (rewriter declared).rewrite s = .ok s') ↔
      s.Lowerable declared ∧ ∀ site ∈ s.sitesWithin names, site.statement.Lowerable declared)
  | .ret value, names => by
      simp only [Rewriter.rewrite, Rewriter.walkOption_eq, exists_bind_eq_ok, exists_pure_eq_ok,
        and_true, Statement.Lowerable, Statement.references, Statement.exprs, forall_references_iff]
      simp [Statement.sitesWithin]
  | .save name value, names => by
      simp only [Rewriter.rewrite, exists_bind_eq_ok, exists_pure_eq_ok, and_true, exists_mapM_iff,
        Statement.Lowerable, Statement.references, Statement.exprs, forall_references_iff]
      simp [Statement.sitesWithin]
  | .update target level edit, names => by
      rw [exists_update_iff]
      simp [Statement.sitesWithin]
  | .choice branches, names => by
      simp only [Rewriter.rewrite, exists_bind_eq_ok, exists_pure_eq_ok, and_true,
        exists_rewriteBranches_iff branches names, Statement.OnBranches, Statement.Lowerable,
        Statement.references, Statement.exprs, forall_references_iff, exists_mapM_iff,
        exists_rewriteExpr_iff]
      simp [Statement.sitesWithin]
  | .forEach source item body, names => by
      simp only [Rewriter.rewrite, exists_bind_eq_ok, exists_pure_eq_ok, and_true, exists_and_right,
        exists_mapM_iff, exists_rewriteBody_iff body (item :: names),
        Statement.Lowerable, Statement.references, Statement.exprs, forall_references_iff]
      simp [Statement.sitesWithin]
  | .call function args, names | .deleteKey store args, names => by
      simp only [Rewriter.rewrite, Rewriter.rewriteExprs, Rewriter.results_parts, exists_bind_eq_ok,
        exists_pure_eq_ok, and_true, Statement.Lowerable, Statement.references, Statement.exprs,
        forall_references_iff]
      simp [Statement.sitesWithin]
  | .noop, names => by
      simp [Rewriter.rewrite, Statement.Lowerable, Statement.references, Statement.exprs,
        Statement.sitesWithin]
  | .setKey store key value, names | .pushAtKey store key values, names => by
      simp only [Rewriter.rewrite, Rewriter.rewriteExprs, Rewriter.results_parts, exists_bind_eq_ok,
        exists_pure_eq_ok, and_true, exists_and_right, exists_pushed_iff, exists_mapM_iff,
        Statement.Lowerable, Statement.references, Statement.exprs, forall_references_iff]
      simp [Statement.sitesWithin, or_imp, forall_and]
termination_by structural s => s

theorem exists_rewriteBody_iff : (body : List Statement) → (names : List String) →
    ((∃ body', (rewriter declared).rewriteBody body = .ok body') ↔
      ∀ site ∈ Statement.sitesBody names body, site.statement.Lowerable declared)
  | [], names => by simp [Rewriter.rewriteBody, Statement.sitesBody]
  | s :: rest, names => by
      simp only [Rewriter.rewriteBody, exists_bind_eq_ok, exists_pure_eq_ok, and_true,
        exists_and_right, exists_rewrite_iff s names,
        exists_rewriteBody_iff rest (s.declares ++ names), Statement.forall_sitesBody_cons]
termination_by structural body => body

theorem exists_rewriteBranches_iff : (branches : List (Guard × List Statement)) →
    (names : List String) →
    ((∃ branches', (rewriter declared).rewriteBranches branches = .ok branches') ↔
      Statement.OnBranches (fun e => ∀ r ∈ e.references .value, r.Allowed declared)
        (fun site => site.statement.Lowerable declared) names branches)
  | [], names => by simp [Rewriter.rewriteBranches, Statement.OnBranches, Statement.sitesBranches]
  | (guard, body) :: rest, names => by
      simp only [Rewriter.rewriteBranches, exists_bind_eq_ok, exists_pure_eq_ok, and_true,
        exists_and_right, exists_rewriteGuard_iff, exists_rewriteBody_iff body names,
        exists_rewriteBranches_iff rest names, Statement.onBranches_cons]
termination_by structural branches => branches
end

end Lowering

/-- A function can be lowered exactly if every reference to a global object that is not discarded is
an access, to a declared global object and by at least one key if it is an update, and no whole
variable is deleted. -/
theorem Function.exists_lower_iff (declared : Option NameSet) (f : Function) :
    (∃ f', f.lower declared = .ok f') ↔
      (∀ r ∈ f.references, r.Allowed declared) ∧
        ∀ name, .update (.saved name) [] .deleteField ∉ f.statements := by
  have hlower : (∃ f', f.lower declared = .ok f') ↔
      ∀ s ∈ f.statements, s.Lowerable declared := by
    simp only [lower, exists_bind_eq_ok, exists_pure_eq_ok, and_true, statements,
      List.forall_mem_map]
    exact Lowering.exists_rewriteBody_iff f.body _
  rw [hlower]
  constructor
  · intro h
    refine ⟨fun r hr => ?_, fun name hname => ?_⟩
    · obtain ⟨s, hs, hr⟩ := List.mem_flatMap.mp hr
      exact (h s hs).1 r hr
    · exact (h _ hname).2 name rfl
  · rintro ⟨hallowed, hdeleted⟩ s hs
    refine ⟨fun r hr => hallowed r (List.mem_flatMap.mpr ⟨s, hs, hr⟩), ?_⟩
    rintro name rfl
    exact hdeleted name hs

end StoredProcedure
