import StoredProcedure.Proofs.Records

namespace StoredProcedure

theorem Json.listOf?_map {α : Type} {write : α → Json} {read : Json → Option α} {levels : Nat}
    (hread : ∀ x, (write x).depth ≤ levels → read (write x) = some x) {xs : List α}
    (h : (Json.array (xs.map write)).depth ≤ levels) :
    (Json.array (xs.map write)).listOf? read = some xs := by
  apply mapM_map_eq_some
  intro x hx
  exact hread x (depthItems_le.mp (Nat.le_of_succ_le h) _ (List.mem_map_of_mem hx))

namespace Kind

variable {kind : Kind} {fields : List (String × Json)}

theorem node?_node (h : (("kind", Json.string kind.name) :: fields |>.map Prod.fst).Nodup)
    (numbered : List Kind) :
    (kind.node fields).node? numbered =
      some (kind, .named (("kind", .string kind.name) :: fields)) := by
  rw [node, Json.node?, Fields.unique?_eq_find? h]
  simp [NameMap.find?, ofJson?]

theorem bind_node? (h : (("kind", Json.string kind.name) :: fields |>.map Prod.fst).Nodup)
    {numbered : List Kind} {α : Type} (f : Kind × Fields Json → Option α) :
    (kind.node fields).node? numbered >>= f =
      f (kind, .named (("kind", .string kind.name) :: fields)) := by
  rw [node?_node h]
  rfl

theorem depth_node_le {levels : Nat} :
    (kind.node fields).depth ≤ levels + 1 ↔ ∀ field ∈ fields, field.2.depth ≤ levels := by
  rw [node, Json.depth, Nat.add_le_add_iff_right, Json.depthMembers_le, List.forall_mem_cons]
  exact and_iff_right (Nat.zero_le levels)

end Kind

@[simp] theorem Comparison.ofSign?_sign (sign : Comparison) : ofSign? sign.sign = some sign := by
  cases sign <;> rfl

@[simp] theorem Arithmetic.ofSign?_sign (sign : Arithmetic) : ofSign? sign.sign = some sign := by
  cases sign <;> rfl

@[simp] theorem Logic.ofSign?_sign (sign : Logic) : ofSign? sign.sign = some sign := by
  cases sign <;> rfl

@[simp] theorem WordInt.int64?_ofInt64 (n : Int64) : (Json.int (ofInt64 n)).int64? = some n := by
  have hlt : (ofInt64 n).val < 0x8000000000000000 := n.toInt_lt
  rw [Json.int64?, if_pos hlt]
  exact congrArg some (Int64.ofInt_toInt n)

namespace Expr

theorem listToJson_eq_map (es : List Expr) : listToJson es = es.map toJson := by
  induction es with
  | nil => rfl
  | cons e rest ih => rw [listToJson, ih, List.map_cons]

def fieldToJson (field : Expr × Expr) : Json :=
  Kind.field.node [("key", field.1.toJson), ("value", field.2.toJson)]

theorem fieldsToJson_eq_map (fields : List (Expr × Expr)) :
    fieldsToJson fields = fields.map fieldToJson := by
  induction fields with
  | nil => rfl
  | cons field rest ih => rw [fieldsToJson, ih, List.map_cons, fieldToJson]

theorem toJson_ne_null (e : Expr) : e.toJson ≠ .null := by
  cases e <;> exact Json.noConfusion

/-- An optional part that is present is never taken for a missing one. -/
theorem partOrMissing?_toJson {e : Expr} {read : Json → Option Expr}
    (h : read e.toJson = some e) :
    Json.partOrMissing? read (some e.toJson) = some (some e) := by
  rw [Json.partOrMissing?, h]
  · rfl
  · exact e.toJson_ne_null

section Step

variable {levels : Nat}
  (ih : ∀ e : Expr, e.toJson.depth ≤ levels → ofJson? levels e.toJson = some e)

include ih

theorem field?_fieldToJson (field : Expr × Expr) (h : (fieldToJson field).depth ≤ levels) :
    Expr.field? (ofJson? levels) (fieldToJson field) = some field := by
  rw [fieldToJson] at h
  have hparts := Kind.depth_node_le.mp (Nat.le_succ_of_le h)
  simp only [List.forall_mem_cons] at hparts
  rw [field?, fieldToJson, Kind.node, Json.fields?]
  simp [ih _ hparts.1, ih _ hparts.2.1]

theorem ofJson?_toJson_succ : (e : Expr) → e.toJson.depth ≤ levels + 1 →
    ofJson? (levels + 1) e.toJson = some e
  | .bool _, _ | .int _, _ | .double _, _ | .string _, _ | .nothing, _ | .saved _, _
  | .globalObject _, _ | .wholeObject _, _ | .keysOfObject _, _ => by
      rw [toJson, ofJson?, Kind.bind_node? (by simp)]
      simp [Json.bool?, Json.double?, Json.string?]
  | .comparison _ left right, h | .arithmetic _ left right, h | .logic _ left right, h => by
      rw [toJson, Kind.depth_node_le] at h
      simp only [List.forall_mem_cons] at h
      rw [toJson, ofJson?, Kind.bind_node? (by simp)]
      simp [Json.sign?, ih left h.2.1, ih right h.2.2.1]
  | .negation value, h | .typeOf value, h | .hasType value _, h | .keys value, h => by
      rw [toJson, Kind.depth_node_le] at h
      simp only [List.forall_mem_cons] at h
      rw [toJson, ofJson?, Kind.bind_node? (by simp)]
      simp [Json.string?, ih value h.1]
  | .fieldExists value field, h => by
      rw [toJson, Kind.depth_node_le] at h
      simp only [List.forall_mem_cons] at h
      rw [toJson, ofJson?, Kind.bind_node? (by simp)]
      simp [ih value h.1, ih field h.2.1]
  | .keyExists _ key, h => by
      rw [toJson, Kind.depth_node_le] at h
      simp only [List.forall_mem_cons] at h
      rw [toJson, ofJson?, Kind.bind_node? (by simp)]
      simp [Json.string?, ih key h.2.1]
  | .object fields, h => by
      rw [toJson, fieldsToJson_eq_map] at h ⊢
      have hfields := Kind.depth_node_le.mp h
      simp only [List.forall_mem_cons] at hfields
      have hlist := Json.listOf?_map (field?_fieldToJson ih) hfields.1
      rw [ofJson?, Kind.bind_node? (by simp)]
      simp [hlist]
  | .array values, h => by
      rw [toJson, listToJson_eq_map] at h ⊢
      rw [Kind.depth_node_le] at h
      simp only [List.forall_mem_cons] at h
      rw [ofJson?, Kind.bind_node? (by simp)]
      simp [Json.listOf?_map ih h.1]
  | .selection root level, h => by
      rw [toJson, listToJson_eq_map] at h ⊢
      rw [Kind.depth_node_le] at h
      simp only [List.forall_mem_cons] at h
      rw [ofJson?, Kind.bind_node? (by simp)]
      simp [Json.listOrMissing?, ih root h.1, Json.listOf?_map ih h.2.1]
  | .call _ items, h | .keyOfObject _ items, h => by
      rw [toJson, listToJson_eq_map] at h ⊢
      rw [Kind.depth_node_le] at h
      simp only [List.forall_mem_cons] at h
      rw [ofJson?, Kind.bind_node? (by simp)]
      simp [Json.string?, Json.listOrMissing?, Json.listOf?_map ih h.2.1]
  | .role schema none, _ => by
      rw [toJson, stateToJson, ofJson?, Kind.bind_node? (by simp)]
      simp [Json.partOrMissing?, Datum.ofJson_json]
  | .role schema (some state), h => by
      rw [toJson, stateToJson, Kind.depth_node_le] at h
      simp only [List.forall_mem_cons] at h
      rw [toJson, stateToJson, ofJson?, Kind.bind_node? (by simp)]
      simp [Datum.ofJson_json, partOrMissing?_toJson (ih state h.2.1)]

end Step

/-- An expression is read back at every number of levels that is not below its depth. -/
theorem ofJson?_toJson (e : Expr) {levels : Nat} (h : e.toJson.depth ≤ levels) :
    ofJson? levels e.toJson = some e := by
  induction levels generalizing e with
  | zero => cases e <;> exact absurd h (Nat.not_succ_le_zero _)
  | succ levels ih => exact ofJson?_toJson_succ ih e h

theorem node?_toJson (e : Expr) (numbered : List Kind) :
    ∃ fields, e.toJson.node? numbered = some (e.kind, fields) := by
  cases e with
  | role schema state =>
      cases state <;> exact ⟨_, Kind.node?_node (by simp [stateToJson]) numbered⟩
  | _ => exact ⟨_, Kind.node?_node (by simp) numbered⟩

theorem listOf?_listToJson {es : List Expr} {levels : Nat}
    (h : (Json.array (listToJson es)).depth ≤ levels) :
    (Json.array (listToJson es)).listOf? (ofJson? levels) = some es := by
  rw [listToJson_eq_map] at h ⊢
  exact Json.listOf?_map (fun e he => e.ofJson?_toJson he) h

end Expr

theorem Target.ofJson?_toJson (target : Target) : ofJson? target.toJson = some target := by
  cases target with
  | saved name | globalObject name =>
      rw [toJson, ofJson?, Kind.bind_node? (by simp)]
      simp [Json.string?]

theorem Edit.ofNode?_toJson (value : Expr) (levels : Nat) : ofNode? levels value.toJson = none := by
  obtain ⟨fields, hnode⟩ := value.node?_toJson Kind.edits
  rw [ofNode?, hnode]
  cases value <;> rfl

theorem Edit.ofJson?_toJson (edit : Edit) {levels : Nat} (h : edit.toJson.depth ≤ levels) :
    ofJson? levels edit.toJson = some edit := by
  cases edit with
  | push values =>
      rw [toJson] at h
      have hvalues := Kind.depth_node_le.mp (Nat.le_succ_of_le h)
      simp only [List.forall_mem_cons] at hvalues
      rw [toJson, ofJson?, ofNode?, Kind.bind_node? (by simp)]
      simp [Expr.listOf?_listToJson hvalues.1]
  | deleteField =>
      rw [toJson, ofJson?, ofNode?, Kind.bind_node? (by simp)]
      simp
  | set value =>
      rw [toJson, ofJson?, ofNode?_toJson, value.ofJson?_toJson h]
      rfl

namespace Statement

theorem listToJson_eq_map (body : List Statement) : listToJson body = body.map toJson := by
  induction body with
  | nil => rfl
  | cons s rest ih => rw [listToJson, ih, List.map_cons]

def branchToJson (branch : Branch) : Json :=
  branch.1.toJson (branch.2.map toJson)

theorem branchesToJson_eq_map (branches : List Branch) :
    branchesToJson branches = branches.map branchToJson := by
  induction branches with
  | nil => rfl
  | cons branch rest ih => rw [branchesToJson, ih, List.map_cons, branchToJson, listToJson_eq_map]

section Step

variable {levels : Nat}
  (ih : ∀ s : Statement, s.toJson.depth ≤ levels → ofJson? levels s.toJson = some s)

include ih

theorem ofJson?_branchToJson (branch : Branch) (h : (branchToJson branch).depth ≤ levels) :
    Branch.ofJson? levels (ofJson? levels) (branchToJson branch) = some branch := by
  obtain ⟨guard, body⟩ := branch
  have hsucc := Nat.le_succ_of_le h
  cases guard with
  | when condition =>
      rw [branchToJson, Guard.toJson, Kind.depth_node_le] at hsucc
      simp only [List.forall_mem_cons] at hsucc
      rw [branchToJson, Guard.toJson, Branch.ofJson?, Kind.bind_node? (by simp)]
      simp [condition.ofJson?_toJson hsucc.1, Json.listOf?_map ih hsucc.2.1]
  | otherwise | lastly =>
      rw [branchToJson, Guard.toJson, Kind.depth_node_le] at hsucc
      simp only [List.forall_mem_cons] at hsucc
      rw [branchToJson, Guard.toJson, Branch.ofJson?, Kind.bind_node? (by simp)]
      simp [Json.listOf?_map ih hsucc.1]

theorem ofJson?_toJson_succ : (s : Statement) → s.toJson.depth ≤ levels + 1 →
    ofJson? (levels + 1) s.toJson = some s
  | .ret none, _ | .noop, _ => by
      rw [toJson, ofJson?, Kind.bind_node? (by simp)]
      simp [Json.partOrMissing?]
  | .ret (some value), h => by
      rw [toJson, Kind.depth_node_le] at h
      simp only [List.forall_mem_cons] at h
      rw [toJson, ofJson?, Kind.bind_node? (by simp)]
      simp [Expr.partOrMissing?_toJson (value.ofJson?_toJson h.1)]
  | .save _ value, h => by
      rw [toJson, Kind.depth_node_le] at h
      simp only [List.forall_mem_cons] at h
      rw [toJson, ofJson?, Kind.bind_node? (by simp)]
      simp [Json.string?, value.ofJson?_toJson h.2.1]
  | .update target level edit, h => by
      rw [toJson, Kind.depth_node_le] at h
      simp only [List.forall_mem_cons] at h
      rw [toJson, ofJson?, Kind.bind_node? (by simp)]
      simp [Json.listOrMissing?, target.ofJson?_toJson,
        Expr.listOf?_listToJson h.2.1, edit.ofJson?_toJson h.2.2.1]
  | .choice branches, h => by
      rw [toJson, branchesToJson_eq_map] at h ⊢
      rw [Kind.depth_node_le] at h
      simp only [List.forall_mem_cons] at h
      rw [ofJson?, Kind.bind_node? (by simp)]
      simp [Json.listOf?_map (ofJson?_branchToJson ih) h.1]
  | .forEach source _ body, h => by
      rw [toJson, listToJson_eq_map] at h ⊢
      rw [Kind.depth_node_le] at h
      simp only [List.forall_mem_cons] at h
      rw [ofJson?, Kind.bind_node? (by simp)]
      simp [Json.string?, source.ofJson?_toJson h.1, Json.listOf?_map ih h.2.2.1]
  | .call _ items, h | .deleteKey _ items, h => by
      rw [toJson, Kind.depth_node_le] at h
      simp only [List.forall_mem_cons] at h
      rw [toJson, ofJson?, Kind.bind_node? (by simp)]
      simp [Json.string?, Json.listOrMissing?, Expr.listOf?_listToJson h.2.1]
  | .setKey _ key value, h => by
      rw [toJson, Kind.depth_node_le] at h
      simp only [List.forall_mem_cons] at h
      rw [toJson, ofJson?, Kind.bind_node? (by simp)]
      simp [Json.string?, Expr.listOf?_listToJson h.2.1, value.ofJson?_toJson h.2.2.1]
  | .pushAtKey _ key values, h => by
      rw [toJson, Kind.depth_node_le] at h
      simp only [List.forall_mem_cons] at h
      rw [toJson, ofJson?, Kind.bind_node? (by simp)]
      simp [Json.string?, Expr.listOf?_listToJson h.2.1, Expr.listOf?_listToJson h.2.2.1]

end Step

theorem node?_toJson (s : Statement) (numbered : List Kind) :
    ∃ node, s.toJson.node? numbered = some node := by
  cases s with
  | ret value => cases value <;> exact ⟨_, Kind.node?_node (by simp) numbered⟩
  | _ => exact ⟨_, Kind.node?_node (by simp) numbered⟩

theorem depth_toJson_pos (s : Statement) : 0 < s.toJson.depth := by
  cases s with
  | ret value => cases value <;> exact Nat.succ_pos _
  | _ => exact Nat.succ_pos _

theorem ofJson?_toJson (s : Statement) {levels : Nat} (h : s.toJson.depth ≤ levels) :
    ofJson? levels s.toJson = some s := by
  induction levels generalizing s with
  | zero => exact absurd h (Nat.not_le.mpr s.depth_toJson_pos)
  | succ levels ih => exact ofJson?_toJson_succ ih s h

end Statement

end StoredProcedure
