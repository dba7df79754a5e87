import StoredProcedure.Proofs.Traversal
import StoredProcedure.Proofs.Tree
import StoredProcedure.Rewriter

namespace StoredProcedure

namespace Expr

/-- Neighbours taken together, as the children of an object make its fields. -/
def pairs : List Expr → List (Expr × Expr)
  | key :: value :: rest => (key, value) :: pairs rest
  | _ => []

/-- The expression with other children in the place of its own, if they are as many. -/
def withChildren : Expr → List Expr → Expr
  | .object _, es => .object (pairs es)
  | .comparison sign _ _, [left, right] => .comparison sign left right
  | .arithmetic sign _ _, [left, right] => .arithmetic sign left right
  | .logic sign _ _, [left, right] => .logic sign left right
  | .negation _, [value] => .negation value
  | .typeOf _, [value] => .typeOf value
  | .hasType _ type, [value] => .hasType value type
  | .selection _ _, root :: level => .selection root level
  | .fieldExists _ _, [value, field] => .fieldExists value field
  | .keys _, [source] => .keys source
  | .array _, es => .array es
  | .call function _, es => .call function es
  | .role schema _, es => .role schema es.head?
  | .keyOfObject store _, es => .keyOfObject store es
  | .keyExists store _, [key] => .keyExists store key
  | e, _ => e

theorem withChildren_children (e : Expr) : e.withChildren e.children = e := by
  cases e with
  | object fields =>
      have hpairs : pairs (fields.flatMap fun field => [field.1, field.2]) = fields := by
        induction fields with
        | nil => rfl
        | cons field rest ih => exact congrArg (field :: ·) ih
      exact congrArg object hpairs
  | role schema state => cases state <;> rfl
  | _ => rfl

theorem flatMap_pairs (n : Nat) (es : List Expr) (h : es.length = 2 * n) :
    ((pairs es).flatMap fun field => [field.1, field.2]) = es := by
  induction n generalizing es with
  | zero =>
      obtain rfl := List.eq_nil_of_length_eq_zero h
      rfl
  | succ n ih =>
      rcases es with _ | ⟨key, _ | ⟨value, rest⟩⟩
      · cases h
      · simp only [List.length_cons, List.length_nil] at h
        omega
      · simp only [List.length_cons] at h
        exact congrArg (key :: value :: ·) (ih rest (by omega))

theorem children_withChildren {e : Expr} {es : List Expr} (h : es.length = e.children.length) :
    (e.withChildren es).children = es := by
  cases e with
  | object fields =>
      refine flatMap_pairs fields.length es ?_
      rw [h, children, List.length_flatMap]
      simp [Nat.mul_comm]
  | role schema state =>
      rcases es with _ | ⟨first, _ | ⟨second, rest⟩⟩
      · rfl
      · rfl
      · cases state <;> cases h
  | selection root level =>
      cases es with
      | nil => cases h
      | cons first rest => rfl
  | array _ | call _ _ | keyOfObject _ _ => rfl
  | comparison _ _ _ | arithmetic _ _ _ | logic _ _ _ | fieldExists _ _ =>
      obtain ⟨left, right, rfl⟩ := List.length_eq_two.mp h
      rfl
  | negation _ | typeOf _ | hasType _ _ | keys _ | keyExists _ _ =>
      obtain ⟨value, rfl⟩ := List.length_eq_one_iff.mp h
      rfl
  | _ =>
      obtain rfl := List.eq_nil_of_length_eq_zero h
      rfl

theorem kind_withChildren (e : Expr) (es : List Expr) : (e.withChildren es).kind = e.kind := by
  fun_cases withChildren e es <;> rfl

/-- A node that a rewriter has a rule for. -/
def Ruled : Expr → Prop
  | .globalObject _ | .selection _ _ | .fieldExists _ _ | .keys _ | .array _ => True
  | _ => False

end Expr

namespace Rewriter

variable (r : Rewriter)

theorem parts_eq (es : List Expr) : r.parts es = es.map fun e => ⟨e, r.rewriteExpr e⟩ := by
  induction es with
  | nil => rfl
  | cons e rest ih =>
      rw [parts, ih]
      rfl

theorem results_parts (es : List Expr) : Part.results (r.parts es) = es.mapM r.rewriteExpr := by
  rw [parts_eq, Part.results, List.mapM_map]
  rfl

/-- A node rebuilt around what becomes of its children. -/
def rebuild (e : Expr) : Except Fault Expr := do
  return e.withChildren (← e.children.mapM r.rewriteExpr)

theorem walkFields_eq (fields : List (Expr × Expr)) : r.walkFields fields = do
    return Expr.pairs (← (Expr.object fields).children.mapM r.rewriteExpr) := by
  induction fields with
  | nil => rfl
  | cons field rest ih =>
      have hchildren : (Expr.object (field :: rest)).children =
          field.1 :: field.2 :: (Expr.object rest).children := rfl
      rw [walkFields, ih, hchildren]
      simp only [List.mapM_cons, bind_assoc, pure_bind]
      rfl

theorem walkOption_eq (state : Option Expr) :
    r.walkOption state = do return (← state.toList.mapM r.rewriteExpr).head? := by
  cases state with
  | none => rfl
  | some e =>
      simp only [walkOption, Option.toList_some, List.mapM_cons, List.mapM_nil, bind_assoc, pure_bind]
      rfl

theorem walk_eq_rebuild {e : Expr} (h : ¬ e.Ruled) : r.walk e = r.rebuild e := by
  cases e with
  | object fields =>
      rw [walk, walkFields_eq, rebuild]
      simp only [bind_assoc, pure_bind]
      rfl
  | role schema state =>
      rw [walk, walkOption_eq, rebuild]
      simp only [bind_assoc, pure_bind]
      rfl
  | call function args =>
      rw [walk, results_parts]
      rfl
  | keyOfObject store key =>
      rw [walk, results_parts]
      rfl
  | globalObject _ | selection _ _ | fieldExists _ _ | keys _ | array _ => exact absurd trivial h
  | comparison _ _ _ | arithmetic _ _ _ | logic _ _ _ | negation _ | typeOf _ | hasType _ _
  | keyExists _ _ =>
      simp only [walk, rebuild, Expr.children, List.mapM_cons, List.mapM_nil, bind_assoc, pure_bind]
      rfl
  | _ => rfl

theorem rebuild_selection (root : Expr) (level : List Expr) : r.rebuild (.selection root level) = do
    return .selection (← r.rewriteExpr root) (← Part.results (r.parts level)) := by
  simp only [rebuild, results_parts, Expr.children, List.mapM_cons, bind_assoc, pure_bind]
  rfl

theorem rebuild_fieldExists (value field : Expr) : r.rebuild (.fieldExists value field) = do
    return .fieldExists (← r.rewriteExpr value) (← r.rewriteExpr field) := by
  simp only [rebuild, Expr.children, List.mapM_cons, List.mapM_nil, bind_assoc, pure_bind]
  rfl

theorem rebuild_keys (source : Expr) :
    r.rebuild (.keys source) = do return .keys (← r.rewriteExpr source) := by
  simp only [rebuild, Expr.children, List.mapM_cons, List.mapM_nil, bind_assoc, pure_bind]
  rfl

theorem rebuild_array (values : List Expr) :
    r.rebuild (.array values) = do return .array (← Part.results (r.parts values)) := by
  rw [results_parts]
  rfl

end Rewriter

end StoredProcedure
