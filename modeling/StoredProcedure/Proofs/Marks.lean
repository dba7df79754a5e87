import Mathlib.Data.List.Flatten
import StoredProcedure.Proofs.LoweringAcceptance

namespace StoredProcedure

inductive Mark where
  | declaration (name : String)
  | mention (name : String)
  | call (function : String)
  | bool (value : Bool)
  | int (value : Int64)
  | double (value : Double)
  | string (value : String)
  | nothing
  | global (name : String)
  | store (name : String)
deriving DecidableEq

namespace Mark

def isGlobal : Mark → Bool
  | global _ => true
  | _ => false

/-- A mark that is neither a global object nor a store. -/
def isLocal : Mark → Bool
  | global _ | store _ => false
  | _ => true

/-- What becomes of a mark. A reference to a declared global object becomes an access to the store
of that name, and every other mark stays. -/
inductive Lowers (declared : Option NameSet) : Mark → Mark → Prop
  | kept {mark : Mark} (h : mark.isGlobal = false) : Lowers declared mark mark
  | accessed {name : String} (h : Lowering.Declared declared name) :
      Lowers declared (.global name) (.store name)

variable {declared : Option NameSet} {marks others : List Mark}

theorem filter_isLocal_of_lowers (h : List.Forall₂ (Lowers declared) marks others) :
    others.filter isLocal = marks.filter isLocal := by
  induction h with
  | nil => rfl
  | cons hmark _ ih =>
      cases hmark with
      | kept h => rw [List.filter_cons, List.filter_cons, ih]
      | accessed h => exact ih

theorem count_store_of_lowers (h : List.Forall₂ (Lowers declared) marks others) (name : String) :
    others.count (.store name) = marks.count (.store name) + marks.count (.global name) := by
  induction h with
  | nil => rfl
  | @cons mark _ _ _ hmark _ ih =>
      rw [List.count_cons, List.count_cons, List.count_cons, ih]
      cases hmark with
      | kept h =>
          have hglobal : mark ≠ .global name := by
            rintro rfl
            cases h
          rw [beq_false_of_ne hglobal, if_neg Bool.false_ne_true]
          omega
      | @accessed other h =>
          have hstore : (store other == store name) = (global other == global name) := by
            simp only [beq_eq_decide, store.injEq, global.injEq]
          have hother : (global other == store name) = false := rfl
          rw [hstore, hother, if_neg Bool.false_ne_true]
          omega

end Mark

namespace Expr

/-- The mark of an expression itself. -/
def mark? : Expr → Option Mark
  | .saved name => some (.mention name)
  | .call function _ => some (.call function)
  | .bool value => some (.bool value)
  | .int value => some (.int value)
  | .double value => some (.double value)
  | .string value => some (.string value)
  | .nothing => some .nothing
  | .globalObject name => some (.global name)
  | .wholeObject store | .keyOfObject store _ | .keyExists store _ | .keysOfObject store =>
      some (.store store)
  | _ => none

def marks (e : Expr) : List Mark :=
  e.nodes.filterMap mark?

/-- The marks that are not in a discarded operand. -/
def keptMarks (e : Expr) : List Mark :=
  (e :: e.kept.map Prod.snd).filterMap mark?

theorem marks_eq (e : Expr) : e.marks = e.mark?.toList ++ e.children.flatMap marks := by
  rw [marks, nodes_eq, List.filterMap_cons, List.filterMap_flatMap]
  cases e.mark? <;> rfl

theorem keptMarks_eq (e : Expr) :
    e.keptMarks = e.mark?.toList ++ (e.places.map Prod.snd).flatMap keptMarks := by
  rw [keptMarks, kept_eq, List.filterMap_cons, List.map_flatMap, List.filterMap_flatMap,
    List.flatMap_map]
  cases e.mark? <;> rfl

theorem mark?_withChildren (e : Expr) (es : List Expr) : (e.withChildren es).mark? = e.mark? := by
  fun_cases withChildren e es <;> rfl

theorem isGlobal_of_mark? {e : Expr} (h : e.global? = none) {mark : Mark}
    (hmark : e.mark? = some mark) : mark.isGlobal = false := by
  cases e with
  | globalObject name => cases h
  | _ => cases hmark <;> rfl

theorem map_snd_places {e : Expr} (h : e.accessed? = none) :
    e.places.map Prod.snd = e.children := by
  fun_cases places e with
  | case1 name source rest => cases h
  | case2 root level _ => simp [children, Function.comp_def]
  | case3 value field => rfl
  | case4 source => rfl
  | case5 e _ _ _ _ => simp [Function.comp_def]

theorem keptMarks_sublist (e : Expr) : e.keptMarks.Sublist e.marks := by
  induction e using induction_on_children with
  | node e ih =>
      rw [keptMarks_eq, marks_eq]
      apply List.Sublist.append_left
      have hplaces := map_snd_places_sublist e
      refine (List.Sublist.flatMap_right _ ?_).trans (hplaces.flatMap marks)
      intro child hchild
      exact ih child (hplaces.subset hchild)

theorem keptMarks_globalObject (name : String) :
    (globalObject name).keptMarks = [.global name] := by
  rw [keptMarks_eq]
  rfl

theorem keptMarks_whole (name : String) :
    (selection (.globalObject name) []).keptMarks = [.global name] := by
  rw [keptMarks_eq]
  simp [mark?, places, keptMarks_globalObject]

theorem keptMarks_listed (name : String) :
    (keys (.globalObject name)).keptMarks = [.global name] := by
  rw [keptMarks_eq]
  simp [mark?, places, keptMarks_globalObject]

theorem keptMarks_selectedAmongKeys (name : String) (source : Expr) (rest : List Expr) :
    (selection (.globalObject name) (.keys source :: rest)).keptMarks =
      .global name :: rest.flatMap keptMarks := by
  rw [keptMarks_eq]
  simp [mark?, places, keptMarks_globalObject, Function.comp_def]

theorem keptMarks_selectedValue (name : String) {first : Expr} (hfirst : first.kind ≠ .keys)
    (rest : List Expr) :
    (selection (.globalObject name) (first :: rest)).keptMarks =
      .global name :: (first :: rest).flatMap keptMarks := by
  have hplaces : (selection (.globalObject name) (first :: rest)).places =
      (.selected, .globalObject name) :: (first :: rest).map fun e => (.value, e) := by
    cases first with
    | keys source => exact absurd rfl hfirst
    | _ => rfl
  rw [keptMarks_eq, hplaces]
  simp [mark?, keptMarks_globalObject, Function.comp_def]

theorem keptMarks_asked (name : String) (field : Expr) :
    (fieldExists (.globalObject name) field).keptMarks = .global name :: field.keptMarks := by
  rw [keptMarks_eq]
  simp [mark?, places, keptMarks_globalObject]

end Expr

namespace Lowering

variable {declared : Option NameSet}

theorem lowers_mark? {e : Expr} (h : e.global? = none) :
    List.Forall₂ (Mark.Lowers declared) e.mark?.toList e.mark?.toList := by
  cases hmark : e.mark? with
  | none => exact .nil
  | some mark => exact .cons (.kept (Expr.isGlobal_of_mark? h hmark)) .nil

theorem lowers_flatMap {es es' : List Expr}
    (h : es.mapM (rewriter declared).rewriteExpr = .ok es')
    (hmarks : ∀ e ∈ es, ∀ e', (rewriter declared).rewriteExpr e = .ok e' →
      List.Forall₂ (Mark.Lowers declared) e.keptMarks e'.marks) :
    List.Forall₂ (Mark.Lowers declared) (es.flatMap Expr.keptMarks) (es'.flatMap Expr.marks) := by
  have hresults := mapM_eq_ok_iff.mp h
  clear h
  induction hresults with
  | nil => exact .nil
  | cons hresult _ ih =>
      rw [List.forall_mem_cons] at hmarks
      exact List.rel_append (hmarks.1 _ hresult) (ih hmarks.2)

/-- The marks of a lowered expression are those of the expression, one by one. -/
theorem lowers_marks {e e' : Expr} (h : (rewriter declared).rewriteExpr e = .ok e') :
    List.Forall₂ (Mark.Lowers declared) e.keptMarks e'.marks := by
  induction e using Expr.induction_on_children generalizing e' with
  | node e ih =>
      have hresults : ∀ es es' : List Expr, es ⊆ e.children →
          es.mapM (rewriter declared).rewriteExpr = .ok es' →
            List.Forall₂ (Mark.Lowers declared) (es.flatMap Expr.keptMarks)
              (es'.flatMap Expr.marks) := by
        intro es es' hsub hes
        exact lowers_flatMap hes fun child hchild child' hchild' => ih child (hsub hchild) hchild'
      cases rewriteExpr_eq_ok_iff.mp h with
      | rebuilt hself hchildren =>
          have haccess := Expr.accessed?_eq_none (global?_eq_none_of_mapM hchildren)
          rw [Expr.marks_eq, Expr.mark?_withChildren,
            Expr.children_withChildren (length_of_mapM hchildren), Expr.keptMarks_eq,
            Expr.map_snd_places haccess]
          exact List.rel_append (lowers_mark? hself) (hresults _ _ (List.Subset.refl _) hchildren)
      | whole hname =>
          rw [Expr.keptMarks_whole, Expr.marks_eq]
          exact .cons (.accessed hname) .nil
      | keys hname =>
          rw [Expr.keptMarks_listed, Expr.marks_eq]
          exact .cons (.accessed hname) .nil
      | selectedKeys hname =>
          rw [Expr.keptMarks_selectedAmongKeys, Expr.marks_eq]
          exact .cons (.accessed hname) .nil
      | selectedAmongKeys hname hrest hlevel =>
          rw [Expr.keptMarks_selectedAmongKeys, Expr.marks_eq, Expr.children, List.flatMap_cons,
            Expr.marks_eq]
          exact .cons (.accessed hname) (hresults _ _ (by simp [Expr.children]) hlevel)
      | selectedValue hname hfirst hlevel =>
          rw [Expr.keptMarks_selectedValue _ hfirst, Expr.marks_eq]
          exact .cons (.accessed hname) (hresults _ _ (by simp [Expr.children]) hlevel)
      | keyExists hname hfield =>
          rw [Expr.keptMarks_asked, Expr.marks_eq, Expr.children, List.flatMap_singleton]
          exact .cons (.accessed hname) (ih _ (by simp [Expr.children]) hfield)

theorem lowers_marks_of_mapM {es es' : List Expr}
    (h : es.mapM (rewriter declared).rewriteExpr = .ok es') :
    List.Forall₂ (Mark.Lowers declared) (es.flatMap Expr.keptMarks) (es'.flatMap Expr.marks) :=
  lowers_flatMap h fun _ _ _ he => lowers_marks he

end Lowering

/-- The mark of what is updated. -/
def Target.mark : Target → Mark
  | .saved name => .mention name
  | .globalObject name => .global name

namespace Statement

variable (marks : Expr → List Mark)

mutual
/-- The marks of a statement and of the statements inside it. A name is declared after the
expression that gives its value. -/
def marksWith : Statement → List Mark
  | .ret value => value.toList.flatMap marks
  | .save name value => marks value ++ [.declaration name]
  | .update target level edit => target.mark :: (level ++ edit.inputs).flatMap marks
  | .choice branches => marksBranches branches
  | .forEach source item body => marks source ++ .declaration item :: marksBody body
  | .call function args => .call function :: args.flatMap marks
  | .noop => []
  | .setKey store key value => .store store :: (key ++ [value]).flatMap marks
  | .deleteKey store key => .store store :: key.flatMap marks
  | .pushAtKey store key values => .store store :: (key ++ values).flatMap marks
termination_by structural s => s

def marksBody : List Statement → List Mark
  | [] => []
  | s :: rest => marksWith s ++ marksBody rest
termination_by structural body => body

def marksBranches : List (Guard × List Statement) → List Mark
  | [] => []
  | (guard, body) :: rest =>
      guard.conditions.flatMap marks ++ marksBody body ++ marksBranches rest
termination_by structural branches => branches
end

section Fewer

variable {marks} {others : Expr → List Mark}

theorem flatMap_marks_sublist (h : ∀ e, (marks e).Sublist (others e)) (es : List Expr) :
    (es.flatMap marks).Sublist (es.flatMap others) :=
  List.Sublist.flatMap_right es fun e _ => h e

mutual
theorem marksWith_sublist (h : ∀ e, (marks e).Sublist (others e)) :
    (s : Statement) → (s.marksWith marks).Sublist (s.marksWith others)
  | .ret value => flatMap_marks_sublist h value.toList
  | .save name value => (h value).append_right [.declaration name]
  | .choice branches => marksBranches_sublist h branches
  | .forEach source _ body => (h source).append ((marksBody_sublist h body).cons_cons _)
  | .noop => List.Sublist.refl _
  | .update _ _ _ | .call _ _ | .setKey _ _ _ | .deleteKey _ _ | .pushAtKey _ _ _ =>
      (flatMap_marks_sublist h _).cons_cons _
termination_by structural s => s

theorem marksBody_sublist (h : ∀ e, (marks e).Sublist (others e)) :
    (body : List Statement) → (marksBody marks body).Sublist (marksBody others body)
  | [] => List.Sublist.refl _
  | s :: rest => (marksWith_sublist h s).append (marksBody_sublist h rest)
termination_by structural body => body

theorem marksBranches_sublist (h : ∀ e, (marks e).Sublist (others e)) :
    (branches : List (Guard × List Statement)) →
      (marksBranches marks branches).Sublist (marksBranches others branches)
  | [] => List.Sublist.refl _
  | (guard, body) :: rest =>
      ((flatMap_marks_sublist h guard.conditions).append (marksBody_sublist h body)).append
        (marksBranches_sublist h rest)
termination_by structural branches => branches
end

end Fewer

end Statement

namespace Lowering

variable {declared : Option NameSet}

theorem lowers_marks_update {target : Target} {level : List Expr} {edit : Edit} {s' : Statement}
    (h : (rewriter declared).rewrite (.update target level edit) = .ok s') :
    List.Forall₂ (Mark.Lowers declared)
      ((Statement.update target level edit).marksWith Expr.keptMarks)
      (s'.marksWith Expr.marks) := by
  obtain ⟨level', inputs', hlevel, hinputs, hlowers⟩ := rewrite_update_eq_ok_iff.mp h
  have hmarks : List.Forall₂ (Mark.Lowers declared)
      ((level ++ edit.inputs).flatMap Expr.keptMarks)
      ((level' ++ (edit.withInputs inputs').inputs).flatMap Expr.marks) := by
    rw [Edit.inputs_withInputs (length_of_mapM hinputs), List.flatMap_append, List.flatMap_append]
    exact List.rel_append (lowers_marks_of_mapM hlevel) (lowers_marks_of_mapM hinputs)
  generalize edit.withInputs inputs' = edit' at hmarks hlowers
  cases hlowers with
  | saved hfield => exact .cons (.kept rfl) hmarks
  | stored hname hkey =>
      cases edit' with
      | push _ | set _ => exact .cons (.accessed hname) hmarks
      | deleteField =>
          rw [Edit.inputs, List.append_nil] at hmarks
          exact .cons (.accessed hname) hmarks

theorem lowers_marks_option {o o' : Option Expr} (h : (rewriter declared).walkOption o = .ok o') :
    List.Forall₂ (Mark.Lowers declared) (o.toList.flatMap Expr.keptMarks)
      (o'.toList.flatMap Expr.marks) := by
  cases o with
  | none =>
      obtain rfl := Except.ok.inj h
      exact .nil
  | some e =>
      obtain ⟨e', he', hsome⟩ := bind_eq_ok.mp h
      obtain rfl := pure_eq_ok.mp hsome
      simp only [Option.toList_some, List.flatMap_singleton]
      exact lowers_marks he'

theorem lowers_marks_guard {guard guard' : Guard}
    (h : (rewriter declared).rewriteGuard guard = .ok guard') :
    List.Forall₂ (Mark.Lowers declared) (guard.conditions.flatMap Expr.keptMarks)
      (guard'.conditions.flatMap Expr.marks) := by
  cases guard with
  | when condition =>
      obtain ⟨condition', hcondition, hwhen⟩ := bind_eq_ok.mp h
      obtain rfl := pure_eq_ok.mp hwhen
      simp only [Guard.conditions, List.flatMap_singleton]
      exact lowers_marks hcondition
  | otherwise | lastly =>
      obtain rfl := Except.ok.inj h
      exact .nil

mutual
theorem lowers_marksWith : (s : Statement) → {s' : Statement} →
    (rewriter declared).rewrite s = .ok s' →
    List.Forall₂ (Mark.Lowers declared) (s.marksWith Expr.keptMarks) (s'.marksWith Expr.marks)
  | .ret value, s', h => by
      simp only [Rewriter.rewrite, bind_eq_ok, pure_eq_ok] at h
      obtain ⟨value', hvalue, rfl⟩ := h
      exact lowers_marks_option hvalue
  | .save name value, s', h => by
      simp only [Rewriter.rewrite, bind_eq_ok, pure_eq_ok] at h
      obtain ⟨value', hvalue, rfl⟩ := h
      exact List.rel_append (lowers_marks hvalue) (.cons (.kept rfl) .nil)
  | .update target level edit, s', h => lowers_marks_update h
  | .choice branches, s', h => by
      simp only [Rewriter.rewrite, bind_eq_ok, pure_eq_ok] at h
      obtain ⟨branches', hbranches, rfl⟩ := h
      exact lowers_marksBranches branches hbranches
  | .forEach source item body, s', h => by
      simp only [Rewriter.rewrite, bind_eq_ok, pure_eq_ok] at h
      obtain ⟨source', hsource, body', hbody, rfl⟩ := h
      exact List.rel_append (lowers_marks hsource) (.cons (.kept rfl) (lowers_marksBody body hbody))
  | .call function args, s', h | .deleteKey store args, s', h => by
      simp only [Rewriter.rewrite, Rewriter.rewriteExprs, Rewriter.results_parts, bind_eq_ok,
        pure_eq_ok] at h
      obtain ⟨args', hargs, rfl⟩ := h
      exact .cons (.kept rfl) (lowers_marks_of_mapM hargs)
  | .noop, s', h => by
      obtain rfl := Except.ok.inj h
      exact .nil
  | .setKey store key value, s', h => by
      simp only [Rewriter.rewrite, Rewriter.rewriteExprs, Rewriter.results_parts, bind_eq_ok,
        pure_eq_ok] at h
      obtain ⟨key', hkey, value', hvalue, rfl⟩ := h
      simp only [Statement.marksWith, List.flatMap_append, List.flatMap_singleton]
      exact .cons (.kept rfl) (List.rel_append (lowers_marks_of_mapM hkey) (lowers_marks hvalue))
  | .pushAtKey store key values, s', h => by
      simp only [Rewriter.rewrite, Rewriter.rewriteExprs, Rewriter.results_parts, bind_eq_ok,
        pure_eq_ok, pushed_eq_ok] at h
      obtain ⟨key', hkey, values', hvalues, rfl⟩ := h
      simp only [Statement.marksWith, List.flatMap_append]
      exact .cons (.kept rfl)
        (List.rel_append (lowers_marks_of_mapM hkey) (lowers_marks_of_mapM hvalues))
termination_by structural s => s

theorem lowers_marksBody : (body : List Statement) → {body' : List Statement} →
    (rewriter declared).rewriteBody body = .ok body' →
    List.Forall₂ (Mark.Lowers declared) (Statement.marksBody Expr.keptMarks body)
      (Statement.marksBody Expr.marks body')
  | [], body', h => by
      obtain rfl := Except.ok.inj h
      exact .nil
  | s :: rest, body', h => by
      simp only [Rewriter.rewriteBody, bind_eq_ok, pure_eq_ok] at h
      obtain ⟨s', hs, rest', hrest, rfl⟩ := h
      exact List.rel_append (lowers_marksWith s hs) (lowers_marksBody rest hrest)
termination_by structural body => body

theorem lowers_marksBranches : (branches : List (Guard × List Statement)) →
    {branches' : List (Guard × List Statement)} →
    (rewriter declared).rewriteBranches branches = .ok branches' →
    List.Forall₂ (Mark.Lowers declared) (Statement.marksBranches Expr.keptMarks branches)
      (Statement.marksBranches Expr.marks branches')
  | [], branches', h => by
      obtain rfl := Except.ok.inj h
      exact .nil
  | (guard, body) :: rest, branches', h => by
      simp only [Rewriter.rewriteBranches, bind_eq_ok, pure_eq_ok] at h
      obtain ⟨guard', hguard, body', hbody, rest', hrest, rfl⟩ := h
      exact List.rel_append
        (List.rel_append (lowers_marks_guard hguard) (lowers_marksBody body hbody))
        (lowers_marksBranches rest hrest)
termination_by structural branches => branches
end

end Lowering

namespace Function

def marks (f : Function) : List Mark :=
  (f.inputs.map fun input => .declaration input.name) ++ Statement.marksBody Expr.marks f.body

/-- The marks that are not in a discarded operand. -/
def keptMarks (f : Function) : List Mark :=
  (f.inputs.map fun input => .declaration input.name) ++ Statement.marksBody Expr.keptMarks f.body

theorem keptMarks_sublist (f : Function) : f.keptMarks.Sublist f.marks :=
  (Statement.marksBody_sublist Expr.keptMarks_sublist f.body).append_left _

theorem lowers_marks {declared : Option NameSet} {f f' : Function} (h : f.lower declared = .ok f') :
    List.Forall₂ (Mark.Lowers declared) f.keptMarks f'.marks := by
  simp only [lower, bind_eq_ok, pure_eq_ok] at h
  obtain ⟨body', hbody, rfl⟩ := h
  apply List.rel_append
  · rw [List.forall₂_map_left_iff, List.forall₂_map_right_iff, List.forall₂_same]
    intro input _
    exact .kept rfl
  · exact Lowering.lowers_marksBody f.body hbody

/-- Lowering loses no access to a store and makes no access twice. A store is accessed as often as
before, and once more for each reference to the global object of its name. What is declared,
mentioned, called and written as a literal stays in its order. Only discarded operands do not
count. -/
theorem marks_kept_of_lower {declared : Option NameSet} {f f' : Function}
    (h : f.lower declared = .ok f') :
    (∀ name, f'.marks.count (.store name) =
      f.keptMarks.count (.store name) + f.keptMarks.count (.global name)) ∧
    f'.marks.filter Mark.isLocal = f.keptMarks.filter Mark.isLocal ∧
    List.Forall₂ (Mark.Lowers declared) f.keptMarks f'.marks ∧
    f.keptMarks.Sublist f.marks := by
  have hmarks := lowers_marks h
  exact ⟨Mark.count_store_of_lowers hmarks, Mark.filter_isLocal_of_lowers hmarks, hmarks,
    keptMarks_sublist f⟩

/-- The log is accessed as a global object and as a store; the reference to `spare` is discarded. -/
def reindex : Function where
  inputs := [⟨"id", default⟩]
  body :=
    [.save "rows" (.selection (.globalObject "log")
        [.keys (.selection (.globalObject "spare") [.saved "id"]), .saved "id"]),
      .setKey "log" [.string "last"] (.keyOfObject "log" [.saved "rows"]),
      .update (.globalObject "log") [.int 0]
        (.push [.fieldExists (.globalObject "users") (.saved "id")])]

theorem marks_kept_of_lower_reindex :
    ∃ f', reindex.lower none = .ok f' ∧ f'.marks.count (.store "log") = 4 ∧
      f'.marks.count (.store "spare") = 0 ∧ reindex.marks.count (.global "spare") = 1 ∧
      f'.marks.filter Mark.isLocal =
        [.declaration "id", .mention "id", .declaration "rows", .string "last", .mention "rows",
          .int 0, .mention "id"] := by
  obtain ⟨f', hlower⟩ : ∃ f', reindex.lower none = .ok f' := ⟨_, rfl⟩
  obtain ⟨hcount, hlocal, -, -⟩ := marks_kept_of_lower hlower
  have hkept : reindex.keptMarks =
      [.declaration "id", .global "log", .mention "id", .declaration "rows", .store "log",
        .string "last", .store "log", .mention "rows", .global "log", .int 0, .global "users",
        .mention "id"] := by
    simp [keptMarks, reindex, Statement.marksBody, Statement.marksWith, Expr.keptMarks_eq,
      Expr.places, Expr.mark?, Expr.children, Edit.inputs, Target.mark]
  refine ⟨f', hlower, ?_, ?_, ?_, ?_⟩
  · rw [hcount, hkept]
    decide
  · rw [hcount, hkept]
    decide
  · simp [marks, reindex, Statement.marksBody, Statement.marksWith, Expr.marks_eq, Expr.mark?,
      Expr.children, Edit.inputs, Target.mark]
  · rw [hlocal, hkept]
    decide

end Function

end StoredProcedure
