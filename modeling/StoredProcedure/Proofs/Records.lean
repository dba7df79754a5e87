import StoredProcedure.Proofs.Dependence
import StoredProcedure.Syntax.Reader
import StoredProcedure.Syntax.Writer

namespace StoredProcedure

theorem NameSet.ofList_names (s : NameSet) : ofList s.names = s :=
  ext_mem fun _ => mem_ofList

namespace NameMap

variable {α : Type}

@[simp] theorem find?_cons {name other : String} {value : α} {rest : List (String × α)} :
    find? name ((other, value) :: rest) =
      if other = name then some value else find? name rest := by
  rw [find?]

@[simp] theorem find?_nil {name : String} : find? name ([] : List (String × α)) = none := rfl

theorem insertEntry_eq_append {name : String} {value : α} {entries : List (String × α)}
    (h : ∀ entry ∈ entries, entry.1 < name) :
    insertEntry name value entries = entries ++ [(name, value)] := by
  induction entries with
  | nil => rfl
  | cons entry rest ih =>
      obtain ⟨hfirst, hrest⟩ := List.forall_mem_cons.mp h
      rw [insertEntry, if_neg (String.lt_asymm hfirst), if_neg (String.ne_of_lt hfirst).symm,
        ih hrest]
      rfl

theorem entries_foldl_insert (rest : List (String × α)) (m : NameMap α)
    (h : ((m.entries ++ rest).map Prod.fst).Pairwise (· < ·)) :
    (rest.foldl (fun m entry => m.insert entry.1 entry.2) m).entries = m.entries ++ rest := by
  induction rest generalizing m with
  | nil => exact (List.append_nil _).symm
  | cons entry rest ih =>
      have hlt : ∀ held ∈ m.entries, held.1 < entry.1 := by
        intro held hheld
        rw [List.map_append, List.map_cons] at h
        exact (List.pairwise_append.mp h).2.2 held.1 (List.mem_map_of_mem hheld) entry.1
          List.mem_cons_self
      have hinsert : (m.insert entry.1 entry.2).entries = m.entries ++ [entry] :=
        insertEntry_eq_append hlt
      rw [List.append_cons, ← hinsert] at h
      rw [List.foldl_cons, ih _ h, hinsert, ← List.append_cons]

theorem entries_ofList {entries : List (String × α)}
    (h : (entries.map Prod.fst).Pairwise (· < ·)) : (ofList entries).entries = entries :=
  entries_foldl_insert entries empty h

theorem ofList_entries (m : NameMap α) : ofList m.entries = m :=
  ext_entries (entries_ofList m.ascending)

end NameMap

mutual
theorem Json.normalize_of_normal : (j : Json) → j.Normal → j.normalize = j
  | .null, _ | .bool _, _ | .int _, _ | .double _, _ | .string _, _ => rfl
  | .array items, h => congrArg Json.array (normalizeItems_of_normal items h)
  | .object members, h => by
      rw [normalize, normalizeMembers_of_normal members h.2, NameMap.entries_ofList h.1]
termination_by structural j => j

theorem Json.normalizeItems_of_normal : (items : List Json) → NormalItems items →
    normalizeItems items = items
  | [], _ => rfl
  | item :: rest, h => by
      rw [normalizeItems, normalize_of_normal item h.1, normalizeItems_of_normal rest h.2]
termination_by structural items => items

theorem Json.normalizeMembers_of_normal : (members : List (String × Json)) →
    NormalMembers members → normalizeMembers members = members
  | [], _ => rfl
  | (key, value) :: rest, h => by
      rw [normalizeMembers, normalize_of_normal value h.1, normalizeMembers_of_normal rest h.2]
termination_by structural members => members
end

theorem Datum.ofJson_json (d : Datum) : ofJson d.json = d :=
  ext_json (d.json.normalize_of_normal d.normal)

namespace Fields

variable {α : Type}

theorem filter_eq_nil {name : String} {members : List (String × α)}
    (h : name ∉ members.map Prod.fst) :
    (members.filter fun member => member.1 = name) = [] := by
  rw [List.filter_eq_nil_iff]
  intro member hmember heq
  exact h (of_decide_eq_true heq ▸ List.mem_map_of_mem hmember)

/-- Where no name is repeated, a field is the first member of its name. -/
theorem unique?_eq_find? {members : List (String × α)} (h : (members.map Prod.fst).Nodup)
    (name : String) : unique? name members = some (NameMap.find? name members) := by
  induction members with
  | nil => rfl
  | cons member rest ih =>
      obtain ⟨hfirst, hrest⟩ := List.nodup_cons.mp h
      by_cases heq : member.1 = name
      · rw [unique?, List.filter_cons_of_pos (by simpa using heq), filter_eq_nil (heq ▸ hfirst),
          NameMap.find?, if_pos heq]
      · rw [unique?, List.filter_cons_of_neg (by simpa using heq), NameMap.find?, if_neg heq]
        exact ih hrest

section Named

variable {members : List (String × α)} {name : String} {names : List String}

@[simp] theorem values?_nil : (named members).values? [] = some [] := rfl

@[simp] theorem values?_cons (h : (members.map Prod.fst).Nodup) :
    (named members).values? (name :: names) =
      ((named members).values? names).map (NameMap.find? name members :: ·) := by
  rw [values?, values?, List.mapM_cons, unique?_eq_find? h]
  cases names.mapM fun name => unique? name members <;> rfl

@[simp] theorem all?_nil : (named members).all? [] = some [] := rfl

@[simp] theorem all?_cons (h : (members.map Prod.fst).Nodup) :
    (named members).all? (name :: names) =
      (NameMap.find? name members).bind fun value =>
        ((named members).all? names).map (value :: ·) := by
  rw [all?, all?, values?_cons h]
  cases (named members).values? names with
  | none => cases NameMap.find? name members <;> rfl
  | some values =>
      show (NameMap.find? name members :: values).mapM id = _
      rw [List.mapM_cons]
      cases NameMap.find? name members with
      | none => rfl
      | some value => exact (Option.map_eq_bind ..).symm

end Named

end Fields

theorem mapM_map_eq_map {α β γ : Type} {write : γ → β} {read : β → Option α} {made : γ → α}
    {xs : List γ} (h : ∀ x ∈ xs, read (write x) = some (made x)) :
    (xs.map write).mapM read = some (xs.map made) := by
  induction xs with
  | nil => rfl
  | cons x rest ih =>
      obtain ⟨hfirst, hrest⟩ := List.forall_mem_cons.mp h
      rw [List.map_cons, List.mapM_cons, hfirst, ih hrest]
      rfl

theorem mapM_map_eq_some {α β : Type} {write : α → β} {read : β → Option α} {xs : List α}
    (h : ∀ x ∈ xs, read (write x) = some x) : (xs.map write).mapM read = some xs := by
  rw [mapM_map_eq_map h, List.map_id']

namespace Json

theorem depthItems_le {items : List Json} {levels : Nat} :
    depthItems items ≤ levels ↔ ∀ item ∈ items, item.depth ≤ levels := by
  induction items with
  | nil => simp [depthItems]
  | cons item rest ih => rw [depthItems, Nat.max_le, List.forall_mem_cons, ih]

theorem depthMembers_le {members : List (String × Json)} {levels : Nat} :
    depthMembers members ≤ levels ↔ ∀ member ∈ members, member.2.depth ≤ levels := by
  induction members with
  | nil => simp [depthMembers]
  | cons member rest ih => rw [depthMembers, Nat.max_le, List.forall_mem_cons, ih]

end Json

end StoredProcedure
