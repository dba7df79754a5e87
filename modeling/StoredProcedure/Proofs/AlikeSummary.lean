import StoredProcedure.Proofs.AlikeCode

namespace StoredProcedure

namespace Expr

variable {taints taints' : Taints} {es es' : List Expr}

/-- Evaluating the expressions reads the same on both sides. -/
abbrev SameReads (taints taints' : Taints) (e e' : Expr) : Prop :=
  SameOutcome (· = ·) (e.reads taints) (e'.reads taints')

theorem sameOutcome_readsList (h : List.Forall₂ (SameReads taints taints') es es') :
    SameOutcome (· = ·) (readsList taints es) (readsList taints' es') :=
  .list (p := readsList taints) (q := readsList taints') rfl rfl (fun _ _ => rfl)
    (fun _ _ => rfl) h

theorem sameOutcome_readsFields {fields : List (Expr × Expr)}
    (h : List.Forall₂ (SameReads taints taints') (object fields).children es) :
    SameOutcome (· = ·) (readsFields taints fields) (readsFields taints' (pairs es)) :=
  .fields (p := readsFields taints) (q := readsFields taints') rfl rfl (fun _ _ _ => rfl)
    (fun _ _ _ => rfl) h

theorem sameOutcome_readsOption {value value' : Option Expr}
    (h : List.Forall₂ (SameReads taints taints') value.toList value'.toList) :
    SameOutcome (· = ·) (readsOption taints value) (readsOption taints' value') := by
  rcases value with _ | value <;> rcases value' with _ | value'
  · exact .ok rfl
  · cases h
  · cases h
  · exact (List.forall₂_cons.mp h).1

theorem sameOutcome_reads_node {e : Expr} (hself : e.kind ≠ .saved)
    (h : List.Forall₂ (SameReads taints taints') e.children es) :
    SameReads taints taints' e (e.withChildren es) := by
  cases e with
  | bool | int | double | string | nothing | wholeObject | keysOfObject | globalObject =>
      exact .refl _
  | saved name => exact absurd rfl hself
  | object fields => exact sameOutcome_readsFields h
  | array values | call function values => exact sameOutcome_readsList h
  | keyOfObject store key => exact (sameOutcome_readsList h).andReturn _
  | role schema state =>
      refine sameOutcome_readsOption ?_
      rwa [toList_head?_of_forall₂ h]
  | negation value | typeOf value | hasType value type | keys value =>
      obtain ⟨_, _, hvalue, hnil, rfl⟩ := List.forall₂_cons_left_iff.mp h
      obtain rfl := List.forall₂_nil_left_iff.mp hnil
      exact hvalue
  | keyExists store key =>
      obtain ⟨_, _, hkey, hnil, rfl⟩ := List.forall₂_cons_left_iff.mp h
      obtain rfl := List.forall₂_nil_left_iff.mp hnil
      exact hkey.andReturn _
  | comparison sign left right | arithmetic sign left right | logic sign left right
  | fieldExists left right =>
      obtain ⟨_, _, hleft, hnext, rfl⟩ := List.forall₂_cons_left_iff.mp h
      obtain ⟨_, _, hright, hnil, rfl⟩ := List.forall₂_cons_left_iff.mp hnext
      obtain rfl := List.forall₂_nil_left_iff.mp hnil
      exact hleft.congr fun _ => hright.andReturn _
  | selection root level =>
      obtain ⟨_, _, hroot, hlevel, rfl⟩ := List.forall₂_cons_left_iff.mp h
      exact hroot.congr fun _ => (sameOutcome_readsList hlevel).andReturn _

theorem sameOutcome_resolveTaint {x y : String} (htaints : taints.Alike taints')
    (h : SameVariable (taints.pairs taints') x y) :
    SameOutcome (· = ·) (taints.resolve x) (taints'.resolve y) := by
  rw [Taints.resolve, Taints.resolve, htaints.value? h]
  cases taints'.value? y with
  | none => exact .error rfl
  | some taint => exact .ok rfl

theorem sameOutcome_reads (htaints : taints.Alike taints') {e e' : Expr}
    (h : e.Alike (taints.pairs taints') e') : SameReads taints taints' e e' :=
  h.on_children (fun hname => (sameOutcome_resolveTaint htaints hname).andReturn _)
    sameOutcome_reads_node

theorem forall₂_sameReads (htaints : taints.Alike taints')
    (h : AlikeList (taints.pairs taints') es es') :
    List.Forall₂ (SameReads taints taints') es es' :=
  h.imp fun _ _ => sameOutcome_reads htaints

end Expr

theorem Lowering.sameOutcome_requireKey (store : String) {key key' : List Expr}
    (h : key.length = key'.length) :
    SameOutcome (· = ·) (requireKey store key) (requireKey store key') := by
  rcases key with _ | ⟨first, rest⟩ <;> rcases key' with _ | ⟨first', rest'⟩
  · exact .error rfl
  · cases h
  · cases h
  · exact .ok rfl

/-- The same actions so far, with variables of any names. -/
structure Flow.Alike (flow flow' : Flow) : Prop where
  taints : flow.taints.Alike flow'.taints
  path : flow.path = flow'.path
  actions : flow.actions = flow'.actions

namespace Flow.Alike

variable {flow flow' : Flow}

theorem read (h : flow.Alike flow') (reads : Reads) : (flow.read reads).Alike (flow'.read reads) :=
  ⟨h.taints, h.path, congrArg (· ++ reads.actions) h.actions⟩

theorem guard (h : flow.Alike flow') (reads : Reads) :
    (flow.guard reads).Alike (flow'.guard reads) :=
  ⟨h.taints, congrArg (· ∪ reads.taint) h.path, (h.read reads).actions⟩

theorem write (h : flow.Alike flow') (store : String) (reads : Reads) :
    (flow.write store reads).Alike (flow'.write store reads) where
  taints := h.taints
  path := h.path
  actions := by rw [Flow.write, Flow.write, h.path, h.actions]

theorem declare (h : flow.Alike flow') (x y : String) (taint : NameSet) :
    (flow.declare x taint).Alike (flow'.declare y taint) :=
  ⟨h.taints.add x y taint, h.path, h.actions⟩

theorem enter (h : flow.Alike flow') : flow.enter.Alike flow'.enter :=
  ⟨h.taints.enter, h.path, h.actions⟩

theorem leave (h : flow.Alike flow') : flow.leave.Alike flow'.leave :=
  ⟨h.taints.leave, h.path, h.actions⟩

theorem change (h : flow.Alike flow') {x y : String}
    (hname : SameVariable (flow.taints.pairs flow'.taints) x y) (whole : Bool) (reads : Reads) :
    (flow.change x whole reads).Alike (flow'.change y whole reads) :=
  ⟨h.taints.modify hname _, h.path, (h.read reads).actions⟩

end Flow.Alike

theorem Edit.Alike.inputs {vars : List (String × String)} {edit edit' : Edit}
    (h : edit.Alike vars edit') : Expr.AlikeList vars edit.inputs edit'.inputs := by
  cases h with
  | push h => exact h
  | deleteField => exact .nil
  | set h => exact .cons h .nil

namespace Statement

section Summarize

variable {flow flow' : Flow}

theorem sameOutcome_summarizeUpdate (hflow : flow.Alike flow') {x y : String}
    (hname : SameVariable (flow.taints.pairs flow'.taints) x y) {level level' : List Expr}
    (hlevel : Expr.AlikeList (flow.taints.pairs flow'.taints) level level') {edit edit' : Edit}
    (hedit : edit.Alike (flow.taints.pairs flow'.taints) edit') :
    SameOutcome Flow.Alike (summarizeUpdate flow x level edit)
      (summarizeUpdate flow' y level' edit') := by
  have hreads := Expr.sameOutcome_readsList
    (Expr.forall₂_sameReads hflow.taints (List.rel_append hlevel hedit.inputs))
  refine (Expr.sameOutcome_resolveTaint hflow.taints hname).congr fun _ => ?_
  cases hedit with
  | push => exact hreads.congr fun reads => .ok (hflow.change hname false reads)
  | set =>
      refine hreads.congr fun reads => .ok ?_
      rw [Edit.isWhole, Edit.isWhole, isEmpty_eq_of_length_eq hlevel.length_eq]
      exact hflow.change hname _ reads
  | deleteField =>
      refine (Lowering.sameOutcome_requireField x y hlevel.length_eq).congr fun _ => ?_
      exact hreads.congr fun reads => .ok (hflow.change hname _ reads)

theorem sameOutcome_summarizeGuard (hflow : flow.Alike flow') {guard guard' : Guard}
    (h : guard.Alike (flow.taints.pairs flow'.taints) guard') :
    SameOutcome Flow.Alike (summarizeGuard flow guard) (summarizeGuard flow' guard') := by
  cases h with
  | when h =>
      exact (Expr.sameOutcome_reads hflow.taints h).congr fun reads => .ok (hflow.guard reads)
  | otherwise | lastly => exact .ok hflow

end Summarize

mutual
theorem sameOutcome_summarize : (s : Statement) → (flow flow' : Flow) → flow.Alike flow' →
    {s' : Statement} → s.Alike (flow.taints.pairs flow'.taints) s' →
    SameOutcome Flow.Alike (s.summarize flow) (s'.summarize flow')
  | .ret value, flow, flow', hflow, _, .ret h =>
      (Expr.sameOutcome_readsOption (Expr.forall₂_sameReads hflow.taints h)).congr fun reads =>
        .ok (hflow.read reads)
  | .save x value, flow, flow', hflow, .save y value', .save h =>
      (Expr.sameOutcome_reads hflow.taints h).congr fun reads =>
        .ok ((hflow.read reads).declare x y reads.taint)
  | .update target level edit, flow, flow', hflow, _, .update htarget hlevel hedit => by
      cases htarget with
      | globalObject => exact .error rfl
      | saved hname => exact sameOutcome_summarizeUpdate hflow hname hlevel hedit
  | .choice branches, flow, flow', hflow, _, .choice h =>
      (Choice.sameOutcome_shapeFrom h 0 false).bind fun _ _ _ _ _ =>
        sameOutcome_summarizeBranches branches flow flow' hflow h
  | .forEach source x body, flow, flow', hflow, .forEach source' y body',
      .forEach hsource hbody => by
      refine (Expr.sameOutcome_reads hflow.taints hsource).congr fun reads => ?_
      have hinner := (hflow.guard reads).enter.declare x y reads.taint
      refine (sameOutcome_summarizeBody body _ _ hinner hbody).bind ?_
      intro after after' _ _ hafter
      exact .ok hafter.leave
  | .call function args, flow, flow', hflow, _, .call h =>
      (Expr.sameOutcome_readsList (Expr.forall₂_sameReads hflow.taints h)).congr fun reads =>
        .ok (hflow.read reads)
  | .noop, flow, flow', hflow, _, .noop => .ok hflow
  | .setKey store key value, flow, flow', hflow, _, .setKey hkey hvalue => by
      have hall := List.rel_append hkey (.cons hvalue .nil)
      refine (Lowering.sameOutcome_requireKey store hkey.length_eq).congr fun _ => ?_
      refine (Expr.sameOutcome_readsList (Expr.forall₂_sameReads hflow.taints hall)).congr ?_
      exact fun reads => .ok (hflow.write store reads)
  | .deleteKey store key, flow, flow', hflow, _, .deleteKey hkey => by
      refine (Lowering.sameOutcome_requireKey store hkey.length_eq).congr fun _ => ?_
      refine (Expr.sameOutcome_readsList (Expr.forall₂_sameReads hflow.taints hkey)).congr ?_
      exact fun reads => .ok (hflow.write store reads)
  | .pushAtKey store key values, flow, flow', hflow, _, .pushAtKey hkey hvalues => by
      have hall := List.rel_append hkey hvalues
      refine (Lowering.sameOutcome_requireKey store hkey.length_eq).congr fun _ => ?_
      refine (Expr.sameOutcome_readsList (Expr.forall₂_sameReads hflow.taints hall)).congr ?_
      exact fun reads => .ok (hflow.write store reads)

theorem sameOutcome_summarizeBody : (body : List Statement) → (flow flow' : Flow) →
    flow.Alike flow' → {body' : List Statement} →
    AlikeBody (flow.taints.pairs flow'.taints) body body' →
    SameOutcome Flow.Alike (summarizeBody flow body) (summarizeBody flow' body')
  | [], flow, flow', hflow, _, .nil => .ok hflow
  | s :: rest, flow, flow', hflow, _, .cons h hrest => by
      refine (sameOutcome_summarize s flow flow' hflow h).bind ?_
      intro after after' hs hs' hafter
      rw [← Scope.pairs_of_names (names_summarize hs) (names_summarize hs') h.length_declares]
        at hrest
      exact sameOutcome_summarizeBody rest after after' hafter hrest

theorem sameOutcome_summarizeBranches : (branches : List (Guard × List Statement)) →
    (flow flow' : Flow) → flow.Alike flow' → {branches' : List (Guard × List Statement)} →
    AlikeBranches (flow.taints.pairs flow'.taints) branches branches' →
    SameOutcome Flow.Alike (summarizeBranches flow branches) (summarizeBranches flow' branches')
  | [], flow, flow', hflow, _, .nil => .ok hflow
  | (guard, body) :: rest, flow, flow', hflow, _, .cons hguard hbody hrest => by
      refine (sameOutcome_summarizeGuard hflow hguard).bind ?_
      intro within within' hs hs' hwithin
      have htaints := taints_summarizeGuard hs
      have htaints' := taints_summarizeGuard hs'
      rw [← htaints, ← htaints'] at hbody hrest
      refine (sameOutcome_summarizeBody body _ _ hwithin.enter hbody).bind ?_
      intro after after' hafter hafter' halike
      refine sameOutcome_summarizeBranches rest _ _ halike.leave ?_
      rwa [Scope.pairs, names_leave_summarizeBody hafter, names_leave_summarizeBody hafter']
end

end Statement

namespace Function

variable {f g : Function}

theorem alike_initialFlow (h : f.inputs.map Input.schema = g.inputs.map Input.schema) :
    f.initialFlow.Alike g.initialFlow := by
  have hfold : ∀ (inputs inputs' : List Input) (taints taints' : Taints), taints.Alike taints' →
      inputs.map Input.schema = inputs'.map Input.schema →
      (inputs.foldl (fun taints input => taints.add input.name .empty) taints).Alike
        (inputs'.foldl (fun taints input => taints.add input.name .empty) taints') := by
    intro inputs
    induction inputs with
    | nil =>
        intro inputs' taints taints' htaints h
        obtain rfl := List.map_eq_nil_iff.mp h.symm
        exact htaints
    | cons input rest ih =>
        intro inputs' taints taints' htaints h
        rcases inputs' with _ | ⟨input', rest'⟩
        · cases h
        · exact ih rest' _ _ (htaints.add input.name input'.name .empty) (List.cons.inj h).2
  exact ⟨hfold _ _ _ _ ⟨rfl, rfl, rfl⟩ h, rfl, rfl⟩

theorem Alike.sameOutcome_summarize (h : f.Alike g) :
    SameOutcome (· = ·) f.summarize g.summarize := by
  have hbody := h.body
  rw [← names_initialFlow, ← names_initialFlow] at hbody
  refine (Statement.sameOutcome_summarizeBody _ _ _ (alike_initialFlow h.schemas) hbody).bind ?_
  intro after after' _ _ hafter
  exact .ok hafter.actions

end Function

end StoredProcedure
