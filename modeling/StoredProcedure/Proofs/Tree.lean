import StoredProcedure.Analysis.Summary

namespace StoredProcedure

namespace Expr

theorem children_object_cons (field : Expr × Expr) (rest : List (Expr × Expr)) :
    (object (field :: rest)).children = field.1 :: field.2 :: (object rest).children := rfl

theorem sizeOf_lt_of_mem_children {e child : Expr} (h : child ∈ e.children) :
    sizeOf child < sizeOf e := by
  cases e with
  | object fields =>
      obtain ⟨⟨key, value⟩, hfield, hchild⟩ := List.mem_flatMap.mp h
      have hlt := List.sizeOf_lt_of_mem hfield
      simp only [List.mem_cons, List.not_mem_nil, or_false, Prod.mk.sizeOf_spec] at hchild hlt
      rw [object.sizeOf_spec]
      rcases hchild with rfl | rfl
      · omega
      · omega
  | role schema state =>
      obtain rfl := Option.mem_toList.mp h
      rw [role.sizeOf_spec, Option.some.sizeOf_spec]
      omega
  | selection root level =>
      rw [selection.sizeOf_spec]
      rcases List.mem_cons.mp h with rfl | hchild
      · omega
      · have hlt := List.sizeOf_lt_of_mem hchild
        omega
  | array values | call function values | keyOfObject store values =>
      have hlt : sizeOf child < sizeOf values := List.sizeOf_lt_of_mem h
      simp only [array.sizeOf_spec, call.sizeOf_spec, keyOfObject.sizeOf_spec]
      omega
  | comparison sign left right | arithmetic sign left right | logic sign left right
  | fieldExists left right =>
      simp only [children, List.mem_cons, List.not_mem_nil, or_false] at h
      simp only [comparison.sizeOf_spec, arithmetic.sizeOf_spec, logic.sizeOf_spec,
        fieldExists.sizeOf_spec]
      rcases h with rfl | rfl
      · omega
      · omega
  | negation value | typeOf value | hasType value type | keys value | keyExists store value =>
      obtain rfl := List.mem_singleton.mp h
      simp only [negation.sizeOf_spec, typeOf.sizeOf_spec, hasType.sizeOf_spec, keys.sizeOf_spec,
        keyExists.sizeOf_spec]
      omega
  | _ => cases h

/-- What holds of an expression if it holds of its children holds of every expression. -/
@[elab_as_elim]
theorem induction_on_children {motive : Expr → Prop}
    (node : ∀ e : Expr, (∀ child ∈ e.children, motive child) → motive e) (e : Expr) : motive e :=
  node e fun child _ => induction_on_children node child
termination_by e
decreasing_by exact sizeOf_lt_of_mem_children ‹_›

/-- An expression and all expressions in it, each before its children. -/
def nodes (e : Expr) : List Expr :=
  e :: e.children.attach.flatMap fun child => child.1.nodes
termination_by e
decreasing_by exact sizeOf_lt_of_mem_children child.2

theorem nodes_eq (e : Expr) : e.nodes = e :: e.children.flatMap nodes := by
  rw [nodes]
  simp

theorem forall_mem_nodes {e : Expr} {P : Expr → Prop} :
    (∀ node ∈ e.nodes, P node) ↔ P e ∧ ∀ child ∈ e.children, ∀ node ∈ child.nodes, P node := by
  rw [nodes_eq, List.forall_mem_cons]
  simp only [List.mem_flatMap, forall_exists_index, and_imp]
  apply and_congr_right
  intro _
  constructor
  · intro h child hchild node hnode
    exact h node child hchild hnode
  · intro h node child hchild hnode
    exact h child hchild node hnode

/-- What is decided at each node and inherited from the children is decided at all nodes. -/
theorem iff_forall_mem_nodes {S P : Expr → Prop}
    (h : ∀ e, S e ↔ P e ∧ ∀ child ∈ e.children, S child) (e : Expr) :
    S e ↔ ∀ node ∈ e.nodes, P node := by
  induction e using induction_on_children with
  | node e ih =>
      rw [h, forall_mem_nodes]
      apply and_congr_right
      intro _
      exact forall₂_congr ih

theorem mem_kindsList {kind : Kind} {es : List Expr} :
    kind ∈ kindsList es ↔ ∃ e ∈ es, kind ∈ e.kinds := by
  induction es with
  | nil => simp [kindsList]
  | cons e rest ih => simp [kindsList, ih]

theorem mem_kindsFields {kind : Kind} (hkind : kind ≠ .field) {fields : List (Expr × Expr)} :
    kind ∈ kindsFields fields ↔ ∃ e ∈ (object fields).children, kind ∈ e.kinds := by
  induction fields with
  | nil => simp [kindsFields, children]
  | cons field rest ih =>
      have hchildren : (object (field :: rest)).children =
          field.1 :: field.2 :: (object rest).children := rfl
      simp [kindsFields, hchildren, ih, hkind]

theorem mem_kinds {kind : Kind} (hkind : kind ≠ .field) {e : Expr} :
    kind ∈ e.kinds ↔ kind = e.kind ∨ ∃ child ∈ e.children, kind ∈ child.kinds := by
  cases e with
  | object fields => rw [kinds, List.mem_cons, mem_kindsFields hkind, Expr.kind]
  | role schema state => cases state <;> simp [kinds, kindsOption, children, Expr.kind]
  | _ => simp [kinds, children, Expr.kind, mem_kindsList]

end Expr

/-- The condition of a branch, if it has one. -/
def Guard.conditions : Guard → List Expr
  | .when condition => [condition]
  | .otherwise | .lastly => []

/-- A statement, and the names that are in scope where it stands, the last declared first. -/
structure Site where
  names : List String
  statement : Statement

namespace Statement

/-- The expressions that stand in a statement itself, not in a statement inside it. -/
def exprs : Statement → List Expr
  | .ret value => value.toList
  | .save _ value => [value]
  | .update _ level edit => level ++ edit.inputs
  | .choice branches => branches.flatMap fun branch => branch.1.conditions
  | .forEach source _ _ => [source]
  | .call _ args => args
  | .noop => []
  | .setKey _ key value => key ++ [value]
  | .deleteKey _ key => key
  | .pushAtKey _ key values => key ++ values

/-- The names that are in scope after a statement because of it. -/
def declares : Statement → List String
  | .save name _ => [name]
  | _ => []

mutual
/-- The statements inside a statement. Branches do not see each other's variables. -/
def sitesWithin (names : List String) : Statement → List Site
  | .choice branches => sitesBranches names branches
  | .forEach _ item body => sitesBody (item :: names) body
  | _ => []
termination_by structural s => s

/-- Statements that follow each other, and those inside them. -/
def sitesBody (names : List String) : List Statement → List Site
  | [] => []
  | s :: rest => ⟨names, s⟩ :: s.sitesWithin names ++ sitesBody (s.declares ++ names) rest
termination_by structural body => body

def sitesBranches (names : List String) : List (Guard × List Statement) → List Site
  | [] => []
  | (_, body) :: rest => sitesBody names body ++ sitesBranches names rest
termination_by structural branches => branches
end

section Sites

variable {P : Site → Prop} {names : List String}

theorem forall_sitesBody_cons {s : Statement} {rest : List Statement} :
    (∀ site ∈ sitesBody names (s :: rest), P site) ↔
      (P ⟨names, s⟩ ∧ ∀ site ∈ s.sitesWithin names, P site) ∧
        ∀ site ∈ sitesBody (s.declares ++ names) rest, P site := by
  rw [sitesBody, List.cons_append, List.forall_mem_cons, List.forall_mem_append, and_assoc]

/-- A property of the conditions of branches and one of the statements in their bodies. -/
def OnBranches (C : Expr → Prop) (P : Site → Prop) (names : List String) (branches : List Branch) :
    Prop :=
  (∀ e ∈ branches.flatMap fun branch => branch.1.conditions, C e) ∧
    ∀ site ∈ sitesBranches names branches, P site

theorem onBranches_cons {C : Expr → Prop} {guard : Guard} {body : List Statement}
    {rest : List Branch} :
    OnBranches C P names ((guard, body) :: rest) ↔
      (∀ e ∈ guard.conditions, C e) ∧ (∀ site ∈ sitesBody names body, P site) ∧
        OnBranches C P names rest := by
  simp only [OnBranches, sitesBranches, List.flatMap_cons, List.forall_mem_append]
  constructor
  · rintro ⟨⟨hguard, hconditions⟩, hbody, hrest⟩
    exact ⟨hguard, hbody, hconditions, hrest⟩
  · rintro ⟨hguard, hbody, hconditions, hrest⟩
    exact ⟨⟨hguard, hconditions⟩, hbody, hrest⟩

end Sites

end Statement

namespace Function

/-- All statements of a function. -/
def sites (f : Function) : List Site :=
  Statement.sitesBody (f.inputs.map Input.name).reverse f.body

def statements (f : Function) : List Statement :=
  f.sites.map Site.statement

/-- All expressions of a function, at any depth. -/
def exprs (f : Function) : List Expr :=
  f.statements.flatMap fun s => s.exprs.flatMap Expr.nodes

end Function

end StoredProcedure
