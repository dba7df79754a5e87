import Mathlib.Data.String.Basic

namespace StoredProcedure

/-- The path of nested keys in a document. -/
def dottedPath (keys : List String) : String :=
  ".".intercalate ("_val" :: keys)

/-- The fields that a path leads through. -/
def fieldsOf (path : String) : List String :=
  (path.toList.splitOn '.').map String.ofList

theorem not_mem_of_mem_splitOn {α : Type} [DecidableEq α] {x : α} {xs part : List α}
    (h : part ∈ xs.splitOn x) : x ∉ part := by
  induction xs generalizing part with
  | nil =>
      rw [List.splitOn_nil, List.mem_singleton] at h
      subst h
      exact List.not_mem_nil
  | cons y ys ih =>
      rw [List.splitOn_cons_eq_if_modifyHead] at h
      split at h
      · rcases List.mem_cons.mp h with rfl | h
        · exact List.not_mem_nil
        · exact ih h
      · rename_i hne
        obtain ⟨head, tail, hsplit⟩ := List.exists_cons_of_ne_nil (List.splitOn_ne_nil x ys)
        rw [hsplit] at h ih
        rcases List.mem_cons.mp h with rfl | h
        · rintro hmem
          rcases List.mem_cons.mp hmem with rfl | hmem
          · exact hne (beq_self_eq_true _)
          · exact ih (.head _) hmem
        · exact ih (.tail _ h)

theorem intercalate_fieldsOf (path : String) : ".".intercalate (fieldsOf path) = path := by
  apply String.toList_injective
  have hid : String.toList ∘ String.ofList = id := funext fun _ => String.toList_ofList
  rw [String.toList_intercalate, fieldsOf, List.map_map, hid, List.map_id]
  exact List.intercalate_splitOn '.'

theorem fieldsOf_append (path more : String) :
    fieldsOf (path ++ "." ++ more) = fieldsOf path ++ fieldsOf more := by
  have hlist : (path ++ "." ++ more).toList = path.toList ++ '.' :: more.toList := by
    rw [String.toList_append, String.toList_append, List.append_assoc]
    rfl
  rw [fieldsOf, hlist, List.splitOn_append_cons_self, List.map_append, fieldsOf, fieldsOf]

theorem fieldsOf_intercalate (key : String) (keys : List String) :
    fieldsOf (".".intercalate (key :: keys)) = (key :: keys).flatMap fieldsOf := by
  induction keys generalizing key with
  | nil => simp [String.intercalate_singleton]
  | cons next rest ih =>
      rw [List.flatMap_cons, ← ih, String.intercalate_cons_cons, fieldsOf_append]

theorem fieldsOf_eq_singleton {key : String} (h : '.' ∉ key.toList) : fieldsOf key = [key] := by
  rw [fieldsOf, List.splitOn_eq_singleton h, List.map_singleton, String.ofList_toList]

theorem not_mem_of_mem_fieldsOf {key path : String} (h : key ∈ fieldsOf path) :
    '.' ∉ key.toList := by
  obtain ⟨part, hpart, rfl⟩ := List.mem_map.mp h
  rw [String.toList_ofList]
  exact not_mem_of_mem_splitOn hpart

theorem flatMap_fieldsOf_eq_self_iff {keys : List String} :
    keys.flatMap fieldsOf = keys ↔ ∀ key ∈ keys, '.' ∉ key.toList := by
  constructor
  · intro h key hkey
    rw [← h] at hkey
    obtain ⟨path, -, hmem⟩ := List.mem_flatMap.mp hkey
    exact not_mem_of_mem_fieldsOf hmem
  · intro h
    induction keys with
    | nil => rfl
    | cons key rest ih =>
        rw [List.flatMap_cons, fieldsOf_eq_singleton (h key (.head _)),
          ih fun other hother => h other (.tail _ hother)]
        rfl

theorem fieldsOf_dottedPath (keys : List String) :
    fieldsOf (dottedPath keys) = "_val" :: keys.flatMap fieldsOf := by
  have hval : fieldsOf "_val" = ["_val"] := fieldsOf_eq_singleton (by decide)
  rw [dottedPath, fieldsOf_intercalate, List.flatMap_cons, hval]
  rfl

/-- Two paths are the same exactly if their keys, taken apart at the points, are. -/
theorem dottedPath_eq_iff {keys others : List String} :
    dottedPath keys = dottedPath others ↔ keys.flatMap fieldsOf = others.flatMap fieldsOf := by
  constructor
  · intro h
    have hfields := congrArg fieldsOf h
    rw [fieldsOf_dottedPath, fieldsOf_dottedPath] at hfields
    exact (List.cons.inj hfields).2
  · intro h
    rw [← intercalate_fieldsOf (dottedPath keys), ← intercalate_fieldsOf (dottedPath others),
      fieldsOf_dottedPath, fieldsOf_dottedPath, h]

end StoredProcedure
