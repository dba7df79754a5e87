import Mathlib.Data.List.Perm.Basic
import StoredProcedure.Proofs.Rewriting

/-!
Programs listed node by node. The label of a node is the node with blanks in the place of its parts:
it has all that stands in the node itself and tells how many parts follow. The labels of a list of
statements, each node before its parts, therefore determine the statements, and also how often each
kind occurs in them.
-/

namespace StoredProcedure

section SelfDelimiting

variable {α β : Type} {f : α → List β}

/-- The end of the list can be seen from the list itself. -/
def SelfDelimiting (f : α → List β) (a : α) : Prop :=
  ∀ other rest more, f a ++ rest = f other ++ more → a = other ∧ rest = more

theorem eq_of_flatMap_eq {as others : List α} (h : ∀ a ∈ as, SelfDelimiting f a)
    (hlength : as.length = others.length) {rest more : List β}
    (heq : as.flatMap f ++ rest = others.flatMap f ++ more) : as = others ∧ rest = more := by
  induction as generalizing others with
  | nil =>
      obtain rfl := List.eq_nil_of_length_eq_zero hlength.symm
      exact ⟨rfl, heq⟩
  | cons a as ih =>
      rcases others with _ | ⟨other, others⟩
      · cases hlength
      · rw [List.flatMap_cons, List.flatMap_cons, List.append_assoc, List.append_assoc] at heq
        obtain ⟨rfl, hrest⟩ := h a List.mem_cons_self other _ _ heq
        obtain ⟨rfl, hmore⟩ := ih (fun a ha => h a (List.mem_cons_of_mem _ ha))
          (Nat.succ.inj hlength) hrest
        exact ⟨rfl, hmore⟩

end SelfDelimiting

theorem blanks_eq {α β : Type} {blank : β} {as others : List α} (h : as.length = others.length) :
    (others.map fun _ => blank) = as.map fun _ => blank := by
  rw [List.map_const', List.map_const', h]

theorem length_eq_of_blanks {α β : Type} {blank : β} {as others : List α}
    (h : (as.map fun _ => blank) = others.map fun _ => blank) : as.length = others.length := by
  simpa using congrArg List.length h

namespace Expr

theorem withChildren_withChildren {e : Expr} {es others : List Expr}
    (h : es.length = e.children.length) (hothers : others.length = e.children.length) :
    (e.withChildren es).withChildren others = e.withChildren others := by
  cases e with
  | object _ | role _ _ | array _ | call _ _ | keyOfObject _ _ => rfl
  | selection root level =>
      rcases es with _ | ⟨first, rest⟩
      · cases h
      · rcases others with _ | ⟨first', rest'⟩
        · cases hothers
        · rfl
  | comparison _ _ _ | arithmetic _ _ _ | logic _ _ _ | fieldExists _ _ =>
      obtain ⟨left, right, rfl⟩ := List.length_eq_two.mp h
      obtain ⟨left', right', rfl⟩ := List.length_eq_two.mp hothers
      rfl
  | negation _ | typeOf _ | hasType _ _ | keys _ | keyExists _ _ =>
      obtain ⟨value, rfl⟩ := List.length_eq_one_iff.mp h
      obtain ⟨value', rfl⟩ := List.length_eq_one_iff.mp hothers
      rfl
  | _ => rfl

/-- The node alone, with a blank for each child. -/
def head (e : Expr) : Expr :=
  e.withChildren (e.children.map fun _ => .nothing)

theorem head_withChildren {e : Expr} {es : List Expr} (h : es.length = e.children.length) :
    (e.withChildren es).head = e.head := by
  rw [head, children_withChildren h, blanks_eq h.symm,
    withChildren_withChildren h (List.length_map _), head]

theorem head_withChildren_children (e : Expr) : e.head.withChildren e.children = e := by
  rw [head, withChildren_withChildren (List.length_map _) rfl, withChildren_children]

theorem length_children_head (e : Expr) : e.head.children.length = e.children.length := by
  rw [head, children_withChildren (List.length_map _), List.length_map]

/-- The kinds that a node is counted under by itself. -/
def ownKinds (e : Expr) : List Kind :=
  match e with
  | .object fields => .object :: fields.map fun _ => .field
  | _ => [e.kind]

theorem ownKinds_head (e : Expr) : e.head.ownKinds = e.ownKinds := by
  cases e with
  | object fields =>
      have hpairs : ∀ fields : List (Expr × Expr),
          ((pairs ((object fields).children.map fun _ => nothing)).map fun _ => Kind.field) =
            fields.map fun _ => Kind.field := by
        intro fields
        induction fields with
        | nil => rfl
        | cons field rest ih => exact congrArg (Kind.field :: ·) ih
      exact congrArg (Kind.object :: ·) (hpairs fields)
  | _ => rfl

theorem kindsList_eq_flatMap (es : List Expr) : kindsList es = es.flatMap kinds := by
  induction es with
  | nil => rfl
  | cons e rest ih => rw [kindsList, ih, List.flatMap_cons]

theorem perm_kindsFields (fields : List (Expr × Expr)) :
    (kindsFields fields).Perm
      ((fields.map fun _ => .field) ++ (object fields).children.flatMap kinds) := by
  induction fields with
  | nil => exact .refl _
  | cons field rest ih =>
      rw [List.perm_iff_count] at ih ⊢
      intro kind
      simp only [kindsFields, children_object_cons, List.map_cons, List.flatMap_cons, List.cons_append,
        List.count_cons, List.count_append, ih kind]
      omega

theorem perm_kinds_children (e : Expr) : e.kinds.Perm (e.ownKinds ++ e.children.flatMap kinds) := by
  cases e with
  | object fields => exact (perm_kindsFields fields).cons _
  | role schema state => cases state <;> simp [kinds, kindsOption, ownKinds, children, kind]
  | _ => simp [kinds, ownKinds, children, kind, kindsList_eq_flatMap]

end Expr

def Edit.head : Edit → Edit
  | .push values => .push (values.map fun _ => .nothing)
  | .deleteField => .deleteField
  | .set _ => .set .nothing

def Edit.ownKinds : Edit → List Kind
  | .push _ => [.push]
  | .deleteField => [.deleteField]
  | .set _ => []

def Guard.head : Guard → Guard
  | .when _ => .when .nothing
  | .otherwise => .otherwise
  | .lastly => .lastly

def Guard.kind : Guard → Kind
  | .when _ => .conditional
  | .otherwise => .otherwise
  | .lastly => .lastly

namespace Statement

/-- The node alone, with a blank for each part. The branches of a choice are nodes of their own. -/
def head : Statement → Statement
  | .ret value => .ret (value.map fun _ => .nothing)
  | .save name _ => .save name .nothing
  | .update target level edit => .update target (level.map fun _ => .nothing) edit.head
  | .choice branches => .choice (branches.map fun _ => (.lastly, []))
  | .forEach _ item body => .forEach .nothing item (body.map fun _ => .noop)
  | .call function args => .call function (args.map fun _ => .nothing)
  | .noop => .noop
  | .setKey store key _ => .setKey store (key.map fun _ => .nothing) .nothing
  | .deleteKey store key => .deleteKey store (key.map fun _ => .nothing)
  | .pushAtKey store key values =>
      .pushAtKey store (key.map fun _ => .nothing) (values.map fun _ => .nothing)

def ownKinds (s : Statement) : List Kind :=
  match s with
  | .update target _ edit => .update :: target.kinds ++ edit.ownKinds
  | _ => [s.kind]

theorem ownKinds_head (s : Statement) : s.head.ownKinds = s.ownKinds := by
  cases s with
  | update target level edit => cases edit <;> rfl
  | _ => rfl

end Statement

/-- What stands in a node itself: a node of which all parts are blanks. -/
inductive Label where
  | expr (head : Expr)
  | statement (head : Statement)
  | branch (guard : Guard) (body : List Statement)

namespace Label

def kinds : Label → List Kind
  | .expr head => head.ownKinds
  | .statement head => head.ownKinds
  | .branch guard _ => [guard.kind]

/-- The variable that is read at a node, if it is such a node. -/
def read? : Label → Option String
  | .expr (.saved name) => some name
  | _ => none

/-- Another name for the variable that is read at a node. -/
def rename (r : String → String) : Label → Label
  | .expr (.saved name) => .expr (.saved (r name))
  | label => label

section Rename

variable (r s : String → String) (label : Label)

theorem kinds_rename : (label.rename r).kinds = label.kinds := by
  rcases label with head | head | ⟨guard, body⟩
  · cases head <;> rfl
  · rfl
  · rfl

theorem read?_rename : (label.rename r).read? = label.read?.map r := by
  rcases label with head | head | ⟨guard, body⟩
  · cases head <;> rfl
  · rfl
  · rfl

theorem rename_rename : (label.rename r).rename s = label.rename (s ∘ r) := by
  rcases label with head | head | ⟨guard, body⟩
  · cases head <;> rfl
  · rfl
  · rfl

theorem rename_id : label.rename id = label := by
  rcases label with head | head | ⟨guard, body⟩
  · cases head <;> rfl
  · rfl
  · rfl

end Rename

end Label

/-- The labels of an expression and of the expressions in it, each before its children. -/
def Expr.labels (e : Expr) : List Label :=
  e.nodes.map fun node => .expr node.head

namespace Statement

mutual
/-- The labels of a statement and of all nodes in it, each before its parts. -/
def labels : Statement → List Label
  | .choice branches => .statement (head (.choice branches)) :: labelsBranches branches
  | .forEach source item body =>
      .statement (head (.forEach source item body)) :: source.labels ++ labelsBody body
  | s => .statement s.head :: s.exprs.flatMap Expr.labels
termination_by structural s => s

def labelsBody : List Statement → List Label
  | [] => []
  | s :: rest => s.labels ++ labelsBody rest
termination_by structural body => body

def labelsBranches : List (Guard × List Statement) → List Label
  | [] => []
  | (guard, body) :: rest =>
      .branch guard.head (body.map fun _ => .noop) :: guard.conditions.flatMap Expr.labels ++
        labelsBody body ++ labelsBranches rest
termination_by structural branches => branches
end

end Statement

namespace Expr

theorem labels_eq (e : Expr) : e.labels = .expr e.head :: e.children.flatMap labels := by
  rw [labels, nodes_eq, List.map_cons, List.map_flatMap]
  rfl

theorem selfDelimiting_labels (e : Expr) : SelfDelimiting labels e := by
  induction e using induction_on_children with
  | node e ih =>
      intro other rest more h
      rw [labels_eq, labels_eq other, List.cons_append, List.cons_append] at h
      -- Equal heads have equally many children, so both lists of children end at one place.
      obtain ⟨hlabel, hchildren⟩ := List.cons.inj h
      have hhead : e.head = other.head := Label.expr.inj hlabel
      have hlength : e.children.length = other.children.length := by
        rw [← length_children_head, hhead, length_children_head]
      obtain ⟨hsame, hrest⟩ := eq_of_flatMap_eq ih hlength hchildren
      refine ⟨?_, hrest⟩
      rw [← head_withChildren_children e, hhead, hsame, head_withChildren_children]

theorem eq_of_flatMap_labels_eq {es others : List Expr} (hlength : es.length = others.length)
    {rest more : List Label} (h : es.flatMap labels ++ rest = others.flatMap labels ++ more) :
    es = others ∧ rest = more :=
  eq_of_flatMap_eq (fun e _ => selfDelimiting_labels e) hlength h

theorem perm_kinds (e : Expr) : e.kinds.Perm (e.labels.flatMap Label.kinds) := by
  induction e using induction_on_children with
  | node e ih =>
      rw [labels_eq, List.flatMap_cons, List.flatMap_assoc, Label.kinds, ownKinds_head]
      exact (perm_kinds_children e).trans ((List.Perm.flatMap_left _ ih).append_left _)

theorem perm_kindsList (es : List Expr) :
    (kindsList es).Perm ((es.flatMap labels).flatMap Label.kinds) := by
  rw [kindsList_eq_flatMap, List.flatMap_assoc]
  exact List.Perm.flatMap_left _ fun e _ => e.perm_kinds

end Expr

theorem Guard.length_conditions_head (guard : Guard) :
    guard.head.conditions.length = guard.conditions.length := by
  cases guard <;> rfl

theorem Guard.perm_kinds (guard : Guard) (body : List Statement) :
    guard.kinds.Perm ((Label.branch guard.head body :: guard.conditions.flatMap Expr.labels).flatMap
      Label.kinds) := by
  cases guard with
  | when condition =>
      rw [List.flatMap_cons, conditions, List.flatMap_singleton]
      exact condition.perm_kinds.cons _
  | otherwise | lastly => exact .refl _

theorem Guard.eq_of_head_of_conditions {guard other : Guard} (hhead : guard.head = other.head)
    (h : guard.conditions = other.conditions) : guard = other := by
  cases guard with
  | when condition =>
      cases other with
      | when _ => exact congrArg when (List.singleton_inj.mp h)
      | _ => cases hhead
  | otherwise | lastly =>
      cases other with
      | when _ => cases hhead
      | _ => exact hhead

theorem Edit.length_inputs_head (edit : Edit) : edit.head.inputs.length = edit.inputs.length := by
  cases edit with
  | push values => exact List.length_map _
  | deleteField | set value => rfl

theorem Edit.eq_of_head_of_inputs {edit other : Edit} (hhead : edit.head = other.head)
    (h : edit.inputs = other.inputs) : edit = other := by
  cases edit with
  | push values =>
      cases other with
      | push _ => exact congrArg push h
      | _ => cases hhead
  | deleteField =>
      cases other with
      | deleteField => rfl
      | _ => cases hhead
  | set value =>
      cases other with
      | set _ => exact congrArg set (List.singleton_inj.mp h)
      | _ => cases hhead

namespace Statement

/-- A statement without statements in it. -/
def isSimple : Statement → Bool
  | .choice _ | .forEach _ _ _ => false
  | _ => true

theorem isSimple_head (s : Statement) : s.head.isSimple = s.isSimple := by
  cases s <;> rfl

theorem labels_of_isSimple {s : Statement} (h : s.isSimple = true) :
    s.labels = .statement s.head :: s.exprs.flatMap Expr.labels := by
  cases s with
  | choice branches | forEach source item body => cases h
  | _ => rfl

theorem length_exprs_head {s : Statement} (h : s.isSimple = true) :
    s.head.exprs.length = s.exprs.length := by
  cases s with
  | choice branches | forEach source item body => cases h
  | ret value => cases value <;> rfl
  | update target level edit => simp [head, exprs, edit.length_inputs_head]
  | _ => simp [head, exprs]

theorem eq_of_head_of_exprs {s other : Statement} (hs : s.isSimple = true)
    (hhead : s.head = other.head) (h : s.exprs = other.exprs) : s = other := by
  cases s with
  | choice branches | forEach source item body => cases hs
  | ret value =>
      cases other with
      | ret other => cases value <;> cases other <;> cases h <;> rfl
      | _ => cases hhead
  | save name value =>
      cases other with
      | save _ other =>
          cases hhead
          cases h
          rfl
      | _ => cases hhead
  | update target level edit =>
      cases other with
      | update _ others other =>
          simp only [head, update.injEq] at hhead
          obtain ⟨rfl, hlevel, hedit⟩ := hhead
          obtain ⟨rfl, hinputs⟩ := List.append_inj h (length_eq_of_blanks hlevel)
          rw [Edit.eq_of_head_of_inputs hedit hinputs]
      | _ => cases hhead
  | call function args =>
      cases other with
      | call _ others =>
          simp only [head, call.injEq] at hhead
          obtain rfl : args = others := h
          rw [hhead.1]
      | _ => cases hhead
  | noop =>
      cases other with
      | noop => rfl
      | _ => cases hhead
  | setKey store key value =>
      cases other with
      | setKey _ others other =>
          simp only [head, setKey.injEq] at hhead
          obtain ⟨rfl, hvalue⟩ := List.append_inj h (length_eq_of_blanks hhead.2.1)
          cases hvalue
          rw [hhead.1]
      | _ => cases hhead
  | deleteKey store key =>
      cases other with
      | deleteKey _ others =>
          simp only [head, deleteKey.injEq] at hhead
          obtain rfl : key = others := h
          rw [hhead.1]
      | _ => cases hhead
  | pushAtKey store key values =>
      cases other with
      | pushAtKey _ others values' =>
          simp only [head, pushAtKey.injEq] at hhead
          obtain ⟨rfl, rfl⟩ := List.append_inj h (length_eq_of_blanks hhead.2.1)
          rw [hhead.1]
      | _ => cases hhead

theorem exists_labels_eq_cons (s : Statement) : ∃ inside, s.labels = .statement s.head :: inside := by
  cases s <;> exact ⟨_, rfl⟩

theorem head_of_labels {s other : Statement} {rest more : List Label}
    (h : s.labels ++ rest = other.labels ++ more) : s.head = other.head := by
  obtain ⟨inside, hs⟩ := s.exists_labels_eq_cons
  obtain ⟨inside', hother⟩ := other.exists_labels_eq_cons
  rw [hs, hother] at h
  exact Label.statement.inj (List.cons.inj h).1

theorem selfDelimiting_of_isSimple {s : Statement} (hs : s.isSimple = true) :
    SelfDelimiting labels s := by
  intro other rest more h
  have hhead := head_of_labels h
  have hother : other.isSimple = true := by rw [← isSimple_head, ← hhead, isSimple_head, hs]
  rw [labels_of_isSimple hs, labels_of_isSimple hother] at h
  have hlength : s.exprs.length = other.exprs.length := by
    rw [← length_exprs_head hs, hhead, length_exprs_head hother]
  obtain ⟨hexprs, hrest⟩ := Expr.eq_of_flatMap_labels_eq hlength (List.cons.inj h).2
  exact ⟨eq_of_head_of_exprs hs hhead hexprs, hrest⟩

mutual
theorem selfDelimiting_labels : (s : Statement) → SelfDelimiting labels s
  | .choice branches => by
      intro other rest more h
      have hhead := head_of_labels h
      cases other with
      | choice others =>
          obtain ⟨rfl, hrest⟩ := eq_of_labelsBranches branches others rest more
            (length_eq_of_blanks (choice.inj hhead)) (List.cons.inj h).2
          exact ⟨rfl, hrest⟩
      | _ => cases hhead
  | .forEach source item body => by
      intro other rest more h
      have hhead := head_of_labels h
      cases other with
      | forEach source' item' body' =>
          obtain ⟨-, rfl, hbody⟩ := forEach.inj hhead
          have hinside := (List.cons.inj h).2
          simp only [List.append_eq, List.append_assoc] at hinside
          obtain ⟨rfl, hstatements⟩ := source.selfDelimiting_labels source' _ _ hinside
          obtain ⟨rfl, hrest⟩ := eq_of_labelsBody body body' rest more (length_eq_of_blanks hbody)
            hstatements
          exact ⟨rfl, hrest⟩
      | _ => cases hhead
  | .ret _ | .save _ _ | .update _ _ _ | .call _ _ | .noop => selfDelimiting_of_isSimple rfl
  | .setKey _ _ _ | .deleteKey _ _ | .pushAtKey _ _ _ => selfDelimiting_of_isSimple rfl
termination_by structural s => s

theorem eq_of_labelsBody : (body others : List Statement) → (rest more : List Label) →
    body.length = others.length → labelsBody body ++ rest = labelsBody others ++ more →
    body = others ∧ rest = more
  | [], others, rest, more, hlength, h => by
      obtain rfl := List.eq_nil_of_length_eq_zero hlength.symm
      exact ⟨rfl, h⟩
  | s :: body, [], rest, more, hlength, h => nomatch hlength
  | s :: body, other :: others, rest, more, hlength, h => by
      rw [labelsBody, labelsBody, List.append_assoc, List.append_assoc] at h
      obtain ⟨rfl, hbody⟩ := selfDelimiting_labels s other _ _ h
      obtain ⟨rfl, hrest⟩ := eq_of_labelsBody body others rest more (Nat.succ.inj hlength) hbody
      exact ⟨rfl, hrest⟩
termination_by structural body => body

theorem eq_of_labelsBranches : (branches others : List (Guard × List Statement)) →
    (rest more : List Label) → branches.length = others.length →
    labelsBranches branches ++ rest = labelsBranches others ++ more →
    branches = others ∧ rest = more
  | [], others, rest, more, hlength, h => by
      obtain rfl := List.eq_nil_of_length_eq_zero hlength.symm
      exact ⟨rfl, h⟩
  | branch :: branches, [], rest, more, hlength, h => nomatch hlength
  | (guard, body) :: branches, (guard', body') :: others, rest, more, hlength, h => by
      obtain ⟨hlabel, hinside⟩ := List.cons.inj h
      obtain ⟨hguard, hbody⟩ := Label.branch.inj hlabel
      simp only [List.append_eq, List.append_assoc] at hinside
      have hconditions : guard.conditions.length = guard'.conditions.length := by
        rw [← guard.length_conditions_head, hguard, guard'.length_conditions_head]
      obtain ⟨hsame, hbodies⟩ := Expr.eq_of_flatMap_labels_eq hconditions hinside
      obtain rfl := Guard.eq_of_head_of_conditions hguard hsame
      obtain ⟨rfl, hbranches⟩ := eq_of_labelsBody body body' _ _ (length_eq_of_blanks hbody) hbodies
      obtain ⟨rfl, hrest⟩ := eq_of_labelsBranches branches others rest more (Nat.succ.inj hlength)
        hbranches
      exact ⟨rfl, hrest⟩
termination_by structural branches => branches
end

theorem labelsBody_injective {body others : List Statement} (h : labelsBody body = labelsBody others) :
    body = others := by
  induction body generalizing others with
  | nil =>
      cases others with
      | nil => rfl
      | cons other others =>
          obtain ⟨inside, hother⟩ := other.exists_labels_eq_cons
          rw [labelsBody, labelsBody, hother] at h
          cases h
  | cons s body ih =>
      cases others with
      | nil =>
          obtain ⟨inside, hs⟩ := s.exists_labels_eq_cons
          rw [labelsBody, labelsBody, hs] at h
          cases h
      | cons other others =>
          obtain ⟨rfl, hbody⟩ := s.selfDelimiting_labels other _ _ h
          rw [ih hbody]

theorem perm_kinds_exprs {s : Statement} (h : s.isSimple = true) :
    s.kinds.Perm (s.ownKinds ++ Expr.kindsList s.exprs) := by
  cases s with
  | choice branches | forEach source item body => cases h
  | ret value =>
      cases value <;>
        simp [kinds, ownKinds, exprs, Statement.kind, Expr.kindsOption, Expr.kindsList]
  | update target level edit =>
      have hedit : edit.kinds = edit.ownKinds ++ Expr.kindsList edit.inputs := by
        cases edit <;> simp [Edit.kinds, Edit.ownKinds, Edit.inputs, Expr.kindsList]
      rw [List.perm_iff_count]
      intro kind
      simp only [kinds, ownKinds, exprs, hedit, Expr.kindsList_eq_flatMap, List.flatMap_append,
        List.cons_append, List.count_cons, List.count_append]
      omega
  | _ => simp [kinds, ownKinds, exprs, Statement.kind, Expr.kindsList_eq_flatMap]

theorem perm_kinds_of_isSimple {s : Statement} (h : s.isSimple = true) :
    s.kinds.Perm (s.labels.flatMap Label.kinds) := by
  rw [labels_of_isSimple h, List.flatMap_cons, Label.kinds, ownKinds_head]
  exact (perm_kinds_exprs h).trans ((Expr.perm_kindsList s.exprs).append_left _)

mutual
theorem perm_kinds : (s : Statement) → s.kinds.Perm (s.labels.flatMap Label.kinds)
  | .choice branches => (perm_kindsBranches branches).cons _
  | .forEach source item body => by
      have hparts := source.perm_kinds.append (perm_kindsBody body)
      rw [← List.flatMap_append] at hparts
      exact hparts.cons _
  | .ret _ | .save _ _ | .update _ _ _ | .call _ _ | .noop => perm_kinds_of_isSimple rfl
  | .setKey _ _ _ | .deleteKey _ _ | .pushAtKey _ _ _ => perm_kinds_of_isSimple rfl
termination_by structural s => s

theorem perm_kindsBody : (body : List Statement) →
    (kindsList body).Perm ((labelsBody body).flatMap Label.kinds)
  | [] => .refl _
  | s :: rest => by
      rw [kindsList, labelsBody, List.flatMap_append]
      exact (perm_kinds s).append (perm_kindsBody rest)
termination_by structural body => body

theorem perm_kindsBranches : (branches : List (Guard × List Statement)) →
    (kindsBranches branches).Perm ((labelsBranches branches).flatMap Label.kinds)
  | [] => .refl _
  | (guard, body) :: rest => by
      rw [kindsBranches, labelsBranches, List.flatMap_append, List.flatMap_append]
      exact ((guard.perm_kinds body).append (perm_kindsBody body)).append (perm_kindsBranches rest)
termination_by structural branches => branches
end

end Statement

end StoredProcedure
