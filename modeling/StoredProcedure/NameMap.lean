import StoredProcedure.NameSet

namespace StoredProcedure

structure NameMap (α : Type) where
  entries : List (String × α)
  ascending : (entries.map Prod.fst).Pairwise (· < ·)
deriving DecidableEq

namespace NameMap

variable {α β ε : Type}

@[ext] theorem ext_entries {m n : NameMap α} (h : m.entries = n.entries) : m = n := by
  cases m
  cases n
  simpa using h

def empty : NameMap α := ⟨[], by simp⟩

def names (m : NameMap α) : List String :=
  m.entries.map Prod.fst

def size (m : NameMap α) : Nat :=
  m.entries.length

def isEmpty (m : NameMap α) : Bool :=
  m.entries.isEmpty

/-- Puts an entry at its place in an ascending list and drops an earlier entry of the same name. -/
def insertEntry (name : String) (value : α) : List (String × α) → List (String × α)
  | [] => [(name, value)]
  | (other, held) :: rest =>
      if name < other then (name, value) :: (other, held) :: rest
      else if name = other then (name, value) :: rest
      else (other, held) :: insertEntry name value rest

theorem map_fst_insertEntry (name : String) (value : α) (entries : List (String × α)) :
    (insertEntry name value entries).map Prod.fst =
      NameSet.insertName name (entries.map Prod.fst) := by
  induction entries with
  | nil => rfl
  | cons entry rest ih =>
      obtain ⟨other, held⟩ := entry
      simp only [insertEntry, List.map_cons, NameSet.insertName]
      split
      · rfl
      · split
        · rename_i heq
          simp [heq]
        · simp [ih]

def insert (m : NameMap α) (name : String) (value : α) : NameMap α :=
  ⟨insertEntry name value m.entries, by
    rw [map_fst_insertEntry]
    exact NameSet.pairwise_insertName m.ascending⟩

/-- The map of a list of entries; of several entries of one name the last counts. -/
def ofList (entries : List (String × α)) : NameMap α :=
  entries.foldl (fun m entry => m.insert entry.1 entry.2) empty

theorem mem_of_mem_insertEntry {name : String} {value : α} {entry : String × α}
    {entries : List (String × α)} (h : entry ∈ insertEntry name value entries) :
    entry = (name, value) ∨ entry ∈ entries := by
  induction entries with
  | nil => simpa [insertEntry] using h
  | cons first rest ih => grind [insertEntry]

theorem mem_of_mem_ofList {entries : List (String × α)} {entry : String × α}
    (h : entry ∈ (ofList entries).entries) : entry ∈ entries := by
  have key : ∀ (rest : List (String × α)) (m : NameMap α),
      entry ∈ (rest.foldl (fun m entry => m.insert entry.1 entry.2) m).entries →
        entry ∈ m.entries ∨ entry ∈ rest := by
    intro rest
    induction rest with
    | nil => exact fun m hm => .inl hm
    | cons first rest ih =>
        intro m hm
        rcases ih _ hm with hm | hm
        · rcases mem_of_mem_insertEntry hm with rfl | hm
          · exact .inr (by simp)
          · exact .inl hm
        · exact .inr (List.mem_cons_of_mem _ hm)
  rcases key entries empty h with h | h
  · cases h
  · exact h

/-- The value of the first entry of a name. -/
def find? (name : String) : List (String × α) → Option α
  | [] => none
  | (other, value) :: rest => if other = name then some value else find? name rest

def get? (m : NameMap α) (name : String) : Option α :=
  find? name m.entries

theorem find?_insertEntry (x name : String) (value : α) (entries : List (String × α)) :
    find? x (insertEntry name value entries) =
      if x = name then some value else find? x entries := by
  induction entries with
  | nil => grind [insertEntry, find?]
  | cons entry rest ih => grind [insertEntry, find?]

@[simp] theorem get?_insert (m : NameMap α) (name x : String) (value : α) :
    (m.insert name value).get? x = if x = name then some value else m.get? x :=
  find?_insertEntry x name value m.entries

@[simp] theorem get?_empty (x : String) : (empty : NameMap α).get? x = none := rfl

def map (f : String → α → β) (m : NameMap α) : NameMap β :=
  ⟨m.entries.map fun entry => (entry.1, f entry.1 entry.2), by
    simpa [Function.comp_def] using m.ascending⟩

/-- Applies a partial function to the entries in order, up to the first failure. -/
def traverseEntries (f : String → α → Except ε β) : (entries : List (String × α)) →
    Except ε { results : List (String × β) // results.map Prod.fst = entries.map Prod.fst }
  | [] => .ok ⟨[], rfl⟩
  | (name, value) :: rest => do
      let result ← f name value
      let ⟨results, hnames⟩ ← traverseEntries f rest
      return ⟨(name, result) :: results, by simp [hnames]⟩

/-- The map of the results, or the failure at the least name that has one. -/
def traverse (f : String → α → Except ε β) (m : NameMap α) : Except ε (NameMap β) := do
  let ⟨results, hnames⟩ ← traverseEntries f m.entries
  return ⟨results, hnames ▸ m.ascending⟩

/-- The results of a partial function before its first failure, in order. -/
def successes (f : String → α → Except ε β) (m : NameMap α) : List (String × β) :=
  go m.entries
where
  go : List (String × α) → List (String × β)
    | [] => []
    | (name, value) :: rest =>
        match f name value with
        | .ok result => (name, result) :: go rest
        | .error _ => []

end NameMap

end StoredProcedure
