import Mathlib.Data.List.Basic
import StoredProcedure.Proofs.ByteOrder
import StoredProcedure.Report.Diagnostic

namespace StoredProcedure

/-- The items are listed in ascending order of their keys, those with one key as they were given. -/
structure ArrangedBy {α κ : Type} [LE κ] [DecidableEq κ] (key : α → κ) (given listed : List α) :
    Prop where
  perm : listed.Perm given
  ascending : listed.Pairwise fun a b => key a ≤ key b
  stable : ∀ k, (listed.filter fun a => key a = k) = given.filter fun a => key a = k

namespace ArrangedBy

variable {α κ : Type} {key : α → κ} {given listed other : List α}

section Filter

variable [DecidableEq κ]

theorem mem_of_filter_eq (h : ∀ k, (given.filter fun a => key a = k) =
    other.filter fun a => key a = k) {a : α} (ha : a ∈ given) : a ∈ other := by
  have hmem : a ∈ given.filter fun b => key b = key a := List.mem_filter.mpr ⟨ha, by simp⟩
  rw [h] at hmem
  exact (List.mem_filter.mp hmem).1

theorem filter_eq_of_filter_cons_eq {a : α}
    (h : ∀ k, ((a :: given).filter fun a => key a = k) = (a :: other).filter fun a => key a = k)
    (k : κ) : (given.filter fun a => key a = k) = other.filter fun a => key a = k := by
  have hk := h k
  by_cases ha : key a = k
  · rw [List.filter_cons_of_pos (by simpa using ha),
      List.filter_cons_of_pos (by simpa using ha)] at hk
    exact (List.cons.inj hk).2
  · rwa [List.filter_cons_of_neg (by simpa using ha),
      List.filter_cons_of_neg (by simpa using ha)] at hk

theorem filter_eq_of_perm (hperm : given.Perm other)
    (hdistinct : given.Pairwise fun a b => key a ≠ key b) (k : κ) :
    (given.filter fun a => key a = k) = other.filter fun a => key a = k := by
  have hother : other.Pairwise fun a b => key a ≠ key b :=
    hperm.pairwise hdistinct fun hne => hne.symm
  refine List.Perm.eq_of_pairwise ?_ (hdistinct.filter _) (hother.filter _) (hperm.filter _)
  intro a b ha hb hne
  have hkey : key a = key b := by
    rw [of_decide_eq_true (List.mem_filter.mp ha).2, of_decide_eq_true (List.mem_filter.mp hb).2]
  exact absurd hkey hne

end Filter

variable [LE κ]

theorem key_head_le [Std.IsLinearOrder κ] {a b : α}
    (h : (a :: listed).Pairwise fun a b => key a ≤ key b) (hb : b ∈ a :: listed) :
    key a ≤ key b := by
  rcases List.mem_cons.mp hb with rfl | hb
  · exact Std.le_refl _
  · exact List.rel_of_pairwise_cons h hb

variable [DecidableEq κ]

theorem again (h : ArrangedBy key given listed) : ArrangedBy key listed listed where
  perm := .refl _
  ascending := h.ascending
  stable _ := rfl

theorem of_perm (h : ArrangedBy key given listed) (hperm : given.Perm other)
    (hdistinct : given.Pairwise fun a b => key a ≠ key b) : ArrangedBy key other listed where
  perm := h.perm.trans hperm
  ascending := h.ascending
  stable k := (h.stable k).trans (filter_eq_of_perm hperm hdistinct k)

variable [Std.IsLinearOrder κ]

/-- Ascending lists are equal if they have the same items of each key. -/
theorem eq_of_filter_eq (hlisted : listed.Pairwise fun a b => key a ≤ key b)
    (hother : other.Pairwise fun a b => key a ≤ key b)
    (h : ∀ k, (listed.filter fun a => key a = k) = other.filter fun a => key a = k) :
    listed = other := by
  induction listed generalizing other with
  | nil =>
      symm
      rw [List.eq_nil_iff_forall_not_mem]
      intro b hb
      cases mem_of_filter_eq (fun k => (h k).symm) hb
  | cons a rest ih =>
      cases other with
      | nil => cases mem_of_filter_eq h List.mem_cons_self
      | cons b more =>
          have hkey : key a = key b := by
            apply Std.le_antisymm
            · exact key_head_le hlisted
                (mem_of_filter_eq (fun k => (h k).symm) List.mem_cons_self)
            · exact key_head_le hother (mem_of_filter_eq h List.mem_cons_self)
          have hheads := h (key b)
          rw [List.filter_cons_of_pos (by simpa using hkey), List.filter_cons_of_pos (by simp)]
            at hheads
          obtain rfl : a = b := (List.cons.inj hheads).1
          obtain rfl : rest = more :=
            ih (List.Pairwise.of_cons hlisted) (List.Pairwise.of_cons hother)
              (filter_eq_of_filter_cons_eq h)
          rfl

theorem unique (h : ArrangedBy key given listed) (h' : ArrangedBy key given other) :
    listed = other :=
  eq_of_filter_eq h.ascending h'.ascending fun k => (h.stable k).trans (h'.stable k).symm

theorem mergeSort {le : α → α → Bool} (hle : ∀ a b, le a b = true ↔ key a ≤ key b)
    (given : List α) : ArrangedBy key given (given.mergeSort le) := by
  have htrans : ∀ a b c, le a b = true → le b c = true → le a c = true := by
    intro a b c hab hbc
    exact (hle a c).mpr (Std.le_trans ((hle a b).mp hab) ((hle b c).mp hbc))
  have htotal : ∀ a b, (le a b || le b a) = true := by
    intro a b
    rw [Bool.or_eq_true, hle, hle]
    exact Std.le_total
  refine ⟨given.mergeSort_perm le, ?_, fun k => ?_⟩
  · exact (List.pairwise_mergeSort htrans htotal given).imp fun h => (hle _ _).mp h
  · have hpairwise : (given.filter fun a => key a = k).Pairwise fun a b => le a b = true := by
      refine List.pairwise_of_forall_mem_list fun a ha b hb => (hle a b).mpr ?_
      rw [of_decide_eq_true (List.mem_filter.mp ha).2, of_decide_eq_true (List.mem_filter.mp hb).2]
      exact Std.le_refl k
    have hsublist := (List.sublist_mergeSort htrans htotal hpairwise List.filter_sublist).filter
      fun a => decide (key a = k)
    rw [List.filter_filter] at hsublist
    simp only [Bool.and_self] at hsublist
    exact (hsublist.eq_of_length ((given.mergeSort_perm le).filter _).length_eq.symm).symm

end ArrangedBy

namespace Diagnostic

/-- The kind and the name of the place that a diagnostic belongs to. -/
def place (d : Diagnostic) : String × String :=
  match d.function with
  | none => ("", "")
  | some name => ("function", name)

/-- What a diagnostic is listed by: its place, its code and its message, as bytes. -/
def key (d : Diagnostic) : List (List UInt8) :=
  [d.place.1, d.place.2, d.code, d.message].map fun text => text.toUTF8.toList

theorem compareFunctions_eq (a b : Diagnostic) :
    compareFunctions a.function b.function =
      (compare a.place.1 b.place.1).then (compare a.place.2 b.place.2) := by
  have hlt : compare "" "function" = .lt := by decide
  have hgt : compare "function" "" = .gt := by decide
  have heq (s : String) : compare s s = .eq := Std.ReflCmp.compare_self
  rw [place, place]
  cases a.function with
  | none =>
      cases b.function with
      | none => rw [compareFunctions, heq, Ordering.then_eq]
      | some name => rw [compareFunctions, hlt, Ordering.lt_then]
  | some name =>
      cases b.function with
      | none => rw [compareFunctions, hgt, Ordering.gt_then]
      | some other => rw [compareFunctions, heq, Ordering.eq_then]

theorem isLE_then_compare {s t : String} {rest : Ordering} {xs ys : List (List UInt8)}
    (h : rest.isLE = true ↔ xs ≤ ys) :
    ((compare s t).then rest).isLE = true ↔ s.toUTF8.toList :: xs ≤ t.toUTF8.toList :: ys := by
  have hlt : compare s t = .lt ↔ s.toUTF8.toList < t.toUTF8.toList :=
    compareOfLessAndEq_eq_lt.trans Text.lt_iff_bytes_lt
  have heq : compare s t = .eq ↔ s.toUTF8.toList = t.toUTF8.toList :=
    Std.LawfulEqOrd.compare_eq_iff_eq.trans ⟨fun h => h ▸ rfl, Text.eq_of_bytes_eq⟩
  rw [Ordering.isLE_then_iff_or, List.cons_le_cons_iff, hlt, heq, h]

theorem isLE_order_iff (a b : Diagnostic) : (a.order b).isLE = true ↔ a.key ≤ b.key := by
  have hempty : Ordering.eq.isLE = true ↔ ([] : List (List UInt8)) ≤ [] := by
    simp
  have horder : a.order b = (compare a.place.1 b.place.1).then ((compare a.place.2 b.place.2).then
      ((compare a.code b.code).then ((compare a.message b.message).then .eq))) := by
    rw [order, compareFunctions_eq, Ordering.then_assoc, Ordering.then_eq]
  rw [horder]
  exact isLE_then_compare (isLE_then_compare (isLE_then_compare (isLE_then_compare hempty)))

theorem function_eq_none_of_key_le {a b : Diagnostic} (h : a.key ≤ b.key)
    (hb : b.function = none) : a.function = none := by
  rw [← isLE_order_iff, order, hb] at h
  cases ha : a.function with
  | none => rfl
  | some name =>
      rw [ha] at h
      cases h

end Diagnostic

namespace Report

variable (report : Report) {given other : List Diagnostic}

theorem arrangedBy_withDiagnostics (given : List Diagnostic) :
    ArrangedBy Diagnostic.key given (report.withDiagnostics given).diagnostics :=
  .mergeSort Diagnostic.isLE_order_iff given

theorem ok_withDiagnostics_iff :
    (report.withDiagnostics given).ok = true ↔ ∀ d ∈ given, d.severity ≠ .error := by
  simp [withDiagnostics]

theorem withDiagnostics_eq_of_perm (hperm : given.Perm other)
    (hlisted : (report.withDiagnostics given).diagnostics =
      (report.withDiagnostics other).diagnostics) :
    report.withDiagnostics given = report.withDiagnostics other := by
  rw [withDiagnostics, withDiagnostics, Report.mk.injEq]
  exact ⟨hperm.all_eq, hlisted, rfl⟩

/-- The diagnostics of a report are in canonical order: they are listed by place, code and message,
those of no function first, and those with the same place, code and message as they were given. The
report is in order exactly if none of them is an error. A report of what it lists is the report
itself, and diagnostics with distinct keys have the same report in whatever order they are given. -/
theorem diagnostics_canonical (report : Report) (given : List Diagnostic) :
    let made := report.withDiagnostics given
    ArrangedBy Diagnostic.key given made.diagnostics ∧
      made.diagnostics.Pairwise (fun a b => b.function = none → a.function = none) ∧
      (made.ok = true ↔ ∀ d ∈ given, d.severity ≠ .error) ∧
      made.withDiagnostics made.diagnostics = made ∧
      ∀ other : List Diagnostic, given.Perm other →
        given.Pairwise (fun a b => a.key ≠ b.key) → report.withDiagnostics other = made := by
  intro made
  have harranged := report.arrangedBy_withDiagnostics given
  refine ⟨harranged, ?_, report.ok_withDiagnostics_iff, ?_, ?_⟩
  · exact harranged.ascending.imp Diagnostic.function_eq_none_of_key_le
  · apply report.withDiagnostics_eq_of_perm harranged.perm
    exact (report.arrangedBy_withDiagnostics made.diagnostics).unique harranged.again
  · intro other hperm hdistinct
    apply report.withDiagnostics_eq_of_perm hperm.symm
    exact (report.arrangedBy_withDiagnostics other).unique (harranged.of_perm hperm hdistinct)

/-- Diagnostics in canonical order. A function without a name comes after no function, and the last
two names are in another order in UTF-16. -/
def mixed : List Diagnostic :=
  [(none, "Z", "z"), (some "", "A", "a"), (some "f", "A", "b"), (some "f", "A", "c"),
    (some "f", "AB", "a"), (some "ｆ", "A", "a"), (some "𝑓", "A", "a")].map
      fun (function, code, message) =>
        ⟨code, if function = none then .error else .warning, .analyze, message, function, [],
          NameMap.empty⟩

theorem diagnostics_canonical_mixed :
    (mixed.Perm mixed.reverse ∧ mixed.Pairwise fun a b => a.key ≠ b.key) ∧
      (empty.withDiagnostics mixed.reverse).diagnostics = mixed ∧
      (empty.withDiagnostics mixed.reverse).ok = false := by
  have hperm : mixed.Perm mixed.reverse := mixed.reverse_perm.symm
  have hdistinct : mixed.Pairwise fun a b => a.key ≠ b.key := by
    have hbelow : mixed.Pairwise fun a b => ¬ (b.order a).isLE = true := by decide +kernel
    refine hbelow.imp fun hnot hkey => hnot ?_
    rw [Diagnostic.isLE_order_iff, hkey]
    exact Std.le_refl _
  have hlisted : (empty.withDiagnostics mixed).diagnostics = mixed := by
    apply List.mergeSort_of_pairwise
    decide +kernel
  have hreport := (diagnostics_canonical empty mixed).2.2.2.2 mixed.reverse hperm hdistinct
  refine ⟨⟨hperm, hdistinct⟩, ?_, ?_⟩
  · rw [hreport]
    exact hlisted
  · rfl

end Report

end StoredProcedure
