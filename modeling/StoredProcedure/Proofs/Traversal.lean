import Mathlib.Data.List.Forall2
import StoredProcedure.NameMap
import StoredProcedure.Proofs.Result

namespace StoredProcedure

variable {ε α β : Type} {f : α → Except ε β}

theorem exists_of_forall₂ {R : α → β → Prop} {xs : List α} {ys : List β} (h : List.Forall₂ R xs ys) :
    ∀ y ∈ ys, ∃ x ∈ xs, R x y := by
  induction h with
  | nil =>
      intro y hy
      cases hy
  | cons hxy _ ih =>
      rw [List.forall_mem_cons]
      refine ⟨⟨_, List.mem_cons_self, hxy⟩, ?_⟩
      intro z hz
      obtain ⟨x, hx, hxz⟩ := ih z hz
      exact ⟨x, List.mem_cons_of_mem _ hx, hxz⟩

theorem mapM_eq_ok_iff {xs : List α} {ys : List β} :
    xs.mapM f = .ok ys ↔ List.Forall₂ (fun x y => f x = .ok y) xs ys := by
  induction xs generalizing ys with
  | nil =>
      rw [List.mapM_nil, pure_eq_ok, List.forall₂_nil_left_iff]
      exact eq_comm
  | cons x rest ih =>
      simp only [List.mapM_cons, bind_eq_ok, pure_eq_ok, List.forall₂_cons_left_iff, ih]
      constructor
      · rintro ⟨y, hy, more, hmore, rfl⟩
        exact ⟨y, more, hy, hmore, rfl⟩
      · rintro ⟨y, more, hy, hmore, rfl⟩
        exact ⟨y, hy, more, hmore, rfl⟩

theorem exists_mapM_iff {xs : List α} :
    (∃ ys, xs.mapM f = .ok ys) ↔ ∀ x ∈ xs, ∃ y, f x = .ok y := by
  induction xs with
  | nil => simp [pure, Except.pure]
  | cons x rest ih =>
      simp only [List.mapM_cons, exists_bind_eq_ok, exists_pure_eq_ok, and_true, exists_and_right,
        ih, List.forall_mem_cons]

theorem length_of_mapM {xs : List α} {ys : List β} (h : xs.mapM f = .ok ys) :
    ys.length = xs.length :=
  (mapM_eq_ok_iff.mp h).length_eq.symm

theorem exists_of_mem_mapM {xs : List α} {ys : List β} (h : xs.mapM f = .ok ys) :
    ∀ y ∈ ys, ∃ x ∈ xs, f x = .ok y :=
  exists_of_forall₂ (mapM_eq_ok_iff.mp h)

theorem mapM_eq_self {f : α → Except ε α} {xs : List α} (h : ∀ x ∈ xs, f x = .ok x) :
    xs.mapM f = .ok xs :=
  mapM_eq_ok_iff.mpr (List.forall₂_same.mpr h)

namespace NameMap

variable {f : String → α → Except ε β}

/-- What stands beside an entry after a traversal. -/
def Results (f : String → α → Except ε β) (entry : String × α) (result : String × β) : Prop :=
  result.1 = entry.1 ∧ f entry.1 entry.2 = .ok result.2

theorem map_fst_of_results {entries : List (String × α)} {results : List (String × β)}
    (h : List.Forall₂ (Results f) entries results) :
    results.map Prod.fst = entries.map Prod.fst := by
  induction h with
  | nil => rfl
  | cons hresult _ ih => rw [List.map_cons, List.map_cons, hresult.1, ih]

theorem traverseEntries_eq_ok_iff {entries : List (String × α)} {results : List (String × β)}
    (hnames : results.map Prod.fst = entries.map Prod.fst) :
    traverseEntries f entries = .ok ⟨results, hnames⟩ ↔
      List.Forall₂ (Results f) entries results := by
  induction entries generalizing results with
  | nil =>
      obtain rfl := List.map_eq_nil_iff.mp hnames
      simp [traverseEntries]
  | cons entry rest ih =>
      rcases results with _ | ⟨result, more⟩
      · cases hnames
      · obtain ⟨hname, hmore⟩ := List.cons.inj hnames
        rw [List.forall₂_cons, ← ih hmore]
        simp only [traverseEntries, bind_eq_ok, pure_eq_ok]
        constructor
        · rintro ⟨value, hvalue, ⟨others, hothers⟩, hrest, hresults⟩
          cases hresults
          exact ⟨⟨rfl, hvalue⟩, hrest⟩
        · rintro ⟨⟨-, hvalue⟩, hrest⟩
          refine ⟨result.2, hvalue, ⟨more, hmore⟩, hrest, ?_⟩
          rw [Subtype.mk.injEq, ← hname]

theorem traverse_eq_ok_iff {m : NameMap α} {m' : NameMap β} :
    m.traverse f = .ok m' ↔ List.Forall₂ (Results f) m.entries m'.entries := by
  simp only [traverse, bind_eq_ok, pure_eq_ok]
  constructor
  · rintro ⟨⟨results, hnames⟩, hresults, rfl⟩
    exact (traverseEntries_eq_ok_iff hnames).mp hresults
  · intro h
    have hnames := map_fst_of_results h
    exact ⟨⟨m'.entries, hnames⟩, (traverseEntries_eq_ok_iff hnames).mpr h, rfl⟩

theorem traverse_eq_self {f : String → α → Except ε α} {m : NameMap α}
    (h : ∀ entry ∈ m.entries, f entry.1 entry.2 = .ok entry.2) : m.traverse f = .ok m :=
  traverse_eq_ok_iff.mpr (List.forall₂_same.mpr fun entry hentry => ⟨rfl, h entry hentry⟩)

end NameMap

end StoredProcedure
