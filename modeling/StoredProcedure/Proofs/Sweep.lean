import StoredProcedure.Proofs.Course

namespace StoredProcedure

namespace Track

/-- Every place of the second track holds what it holds in the first. -/
def Below (t u : Track) : Prop :=
  ∀ store place, t.Has store place → u.Has store place

theorem Below.trans {t u v : Track} (h : t.Below u) (hnext : u.Below v) : t.Below v :=
  fun store place hhas => hnext store place (h store place hhas)

theorem Carries.below {shape after : Scope Unit} {f : Track → Track} (hf : Carries shape after f)
    {t u : Track} (ht : t.shape = shape) (hu : u.shape = shape) (h : t.Below u) :
    (f t).Below (f u) :=
  fun _ place => (hf.has place).mono ht hu h

theorem Has.lt_nextSlot {t : Track} {store : String} {slot : Nat} (h : t.Has store (.slot slot)) :
    slot < t.shape.nextSlot := by
  obtain ⟨taint, htaint, -⟩ := h
  rw [shape, Scope.nextSlot_shape, ← Scope.length_values]
  exact (List.getElem?_eq_some_iff.mp htaint).1

end Track

/-- No variable in a slot below the bound is replaced. -/
def Step.keeps (bound : Nat) (shape : Scope Unit) : Step → Bool
  | .change name true _ => (shape.slot? name).all fun slot => bound ≤ slot
  | .change _ false _ | .pass | .guard _ | .declare _ _ => true

theorem Step.has_run {step : Step} {bound slot : Nat} {t : Track} {store : String}
    (h : step.keeps bound t.shape = true) (hslot : slot < bound)
    (hhas : t.Has store (.slot slot)) : (step.run t).Has store (.slot slot) := by
  cases step with
  | pass => exact hhas
  | guard value => exact Track.has_guard.mpr (.inl hhas)
  | declare name value => exact Track.has_declare.mpr (.inl hhas)
  | change name whole values =>
      cases hname : t.shape.slot? name with
      | none => exact (Track.has_change_of_none hname).mpr hhas
      | some changed =>
          refine (Track.has_change_of_slot hname).mpr (.inl ⟨?_, hhas⟩)
          cases whole with
          | false => exact .inr rfl
          | true =>
              have hbound : bound ≤ changed := by simpa [keeps, hname] using h
              exact .inl (by omega)

theorem Step.has_run_path {step : Step} {t : Track} {store : String} (hhas : t.Has store .path) :
    (step.run t).Has store .path := by
  cases step with
  | pass => exact hhas
  | guard value => exact Track.has_guard.mpr (.inl hhas)
  | declare name value => exact hhas
  | change name whole values => exact hhas

/-- All that a write depends on is recorded under its number, with the store that it changes. -/
def Write.Covered (recorded : List (String × NameSet)) (w : Write) : Prop :=
  ∀ name ∈ w.dependences, ∃ dependsOn,
    recorded[w.number]? = some (w.store, dependsOn) ∧ name ∈ dependsOn

theorem Write.Covered.append {recorded : List (String × NameSet)} {w : Write}
    (h : w.Covered recorded) (more : List (String × NameSet)) : w.Covered (recorded ++ more) := by
  intro name hname
  obtain ⟨dependsOn, hget, hmem⟩ := h name hname
  exact ⟨dependsOn, getElem?_append_of_eq_some hget, hmem⟩

namespace Course

/-- What is recorded covers all paths exactly if it covers them at once. -/
theorem forall_covered_iff_merged {c : Course} (hc : c.WellScoped) {number : Nat} {t : Track}
    (recorded : List (String × NameSet)) :
    (∀ p ∈ c.paths number t, ∀ w ∈ p.writes, w.Covered recorded) ↔
      ∀ w ∈ (c.merged number (some t)).1, w.Covered recorded := by
  constructor
  · intro hcovered w hw name hname
    obtain ⟨p, hp, other, hother, hnumber, hstore, hmem⟩ :=
      (c.depends_merged_iff_paths hc).mp ⟨w, hw, rfl, rfl, hname⟩
    rw [← hnumber, ← hstore]
    exact hcovered p hp other hother name hmem
  · intro hcovered p hp w hw name hname
    obtain ⟨other, hother, hnumber, hstore, hmem⟩ :=
      (c.depends_merged_iff_paths hc).mpr ⟨p, hp, w, hw, rfl, rfl, hname⟩
    rw [← hnumber, ← hstore]
    exact hcovered other hother name hmem

/-- Visits everything once. -/
def sweep : Course → Track → List (String × NameSet) × Track
  | .step s, t => ([], s.run t)
  | .write store values, t => ([(store, t.written values)], t)
  | .andThen first next, t | .either first next, t =>
      let before := first.sweep t
      let after := next.sweep before.2
      (before.1 ++ after.1, after.2)
  | .block inner, t =>
      let after := inner.sweep t.enter
      (after.1, after.2.leave)
  | .cut beyond, t => beyond.sweep t

/-- No variable in a slot below the bound is replaced anywhere. -/
def keeps (bound : Nat) : Course → Scope Unit → Bool
  | .step s, shape => s.keeps bound shape
  | .write _ _, _ => true
  | .andThen first next, shape =>
      first.keeps bound shape && next.keeps bound (first.scopeAfter shape)
  | .either left right, shape => left.keeps bound shape && right.keeps bound shape
  | .block inner, shape => inner.keeps bound shape.enter
  | .cut beyond, shape => beyond.keeps bound shape

/-- Where there are two ways to go on, none of them replaces a variable that was there before. -/
def spares : Course → Scope Unit → Bool
  | .step _, _ | .write _ _, _ | .cut _, _ => true
  | .andThen first next, shape => first.spares shape && next.spares (first.scopeAfter shape)
  | .either left right, shape =>
      left.spares shape && right.spares shape &&
        (left.keeps shape.nextSlot shape && right.keeps shape.nextSlot shape)
  | .block inner, shape => inner.spares shape.enter

theorem map_fst_sweep (c : Course) : ∀ t, (c.sweep t).1.map Prod.fst = c.stores := by
  induction c with
  | step s => exact fun _ => rfl
  | write store values => exact fun _ => rfl
  | andThen first next ihfirst ihnext =>
      intro t
      rw [sweep, stores, List.map_append, ihfirst, ihnext]
  | either left right ihleft ihright =>
      intro t
      rw [sweep, stores, List.map_append, ihleft, ihright]
  | block inner ih => exact fun t => ih t.enter
  | cut beyond ih => exact ih

theorem length_sweep (c : Course) (t : Track) : (c.sweep t).1.length = c.size := by
  rw [size, ← c.map_fst_sweep t, List.length_map]

theorem shape_sweep (c : Course) (hc : c.WellScoped) :
    ∀ t, (c.sweep t).2.shape = c.scopeAfter t.shape := by
  induction c with
  | step s => exact fun t => (s.carries_run t.shape).shape_eq t rfl
  | write store values => exact fun _ => rfl
  | andThen first next ihfirst ihnext =>
      intro t
      rw [sweep, ihnext hc.2, ihfirst hc.1]
      rfl
  | either left right ihleft ihright =>
      intro t
      rw [sweep, ihright hc.2.1, ihleft hc.1, (hc.2.2 _).1, (hc.2.2 _).2]
      rfl
  | block inner ih =>
      intro t
      have hinner := (Track.carries_leave _).shape_eq _ (ih hc t.enter)
      exact hinner.trans (inner.leave_scopeAfter_enter t.shape)
  | cut beyond ih => exact ih hc

theorem shape_sweep_left {left right : Course} (hc : (left.either right).WellScoped) (t : Track) :
    (left.sweep t).2.shape = t.shape := by
  rw [left.shape_sweep hc.1, (hc.2.2 t.shape).1]

theorem has_sweep (c : Course) (hc : c.WellScoped) {bound slot : Nat} {store : String}
    (hslot : slot < bound) :
    ∀ t : Track, c.keeps bound t.shape = true → t.Has store (.slot slot) →
      (c.sweep t).2.Has store (.slot slot) := by
  induction c with
  | step s => exact fun t h hhas => s.has_run h hslot hhas
  | write other values => exact fun _ _ hhas => hhas
  | andThen first next ihfirst ihnext =>
      intro t h hhas
      obtain ⟨hfirst, hnext⟩ := Bool.and_eq_true_iff.mp h
      rw [← first.shape_sweep hc.1] at hnext
      exact ihnext hc.2 _ hnext (ihfirst hc.1 t hfirst hhas)
  | either left right ihleft ihright =>
      intro t h hhas
      obtain ⟨hleft, hright⟩ := Bool.and_eq_true_iff.mp h
      rw [← shape_sweep_left hc t] at hright
      exact ihright hc.2.1 _ hright (ihleft hc.1 t hleft hhas)
  | block inner ih =>
      intro t h hhas
      have hinner := ih hc t.enter h (Track.has_enter.mpr hhas)
      refine Track.has_leave.mpr ⟨?_, hinner⟩
      rw [inner.shape_sweep hc]
      exact (inner.leave_scopeAfter_enter t.shape).symm ▸ hhas.lt_nextSlot
  | cut beyond ih => exact fun t h hhas => ih hc t h hhas

theorem has_sweep_path (c : Course) {store : String} :
    ∀ t : Track, t.Has store .path → (c.sweep t).2.Has store .path := by
  induction c with
  | step s => exact fun _ hhas => s.has_run_path hhas
  | write other values => exact fun _ hhas => hhas
  | andThen first next ihfirst ihnext => exact fun t hhas => ihnext _ (ihfirst t hhas)
  | either left right ihleft ihright => exact fun t hhas => ihright _ (ihleft t hhas)
  | block inner ih => exact fun t hhas => ih t.enter hhas
  | cut beyond ih => exact ih

theorem below_sweep (c : Course) (hc : c.WellScoped) {t : Track}
    (h : c.keeps t.shape.nextSlot t.shape = true) : t.Below (c.sweep t).2 := by
  intro store place hhas
  cases place with
  | path => exact c.has_sweep_path t hhas
  | slot slot => exact c.has_sweep hc hhas.lt_nextSlot t h hhas

section Paths

variable {first next left right : Course} {t u v : Track} {number : Nat} {p : Path}

theorem spares_andThen (hc : first.WellScoped) (h : (first.andThen next).spares t.shape = true) :
    first.spares t.shape = true ∧ next.spares (first.sweep t).2.shape = true := by
  rw [first.shape_sweep hc]
  exact Bool.and_eq_true_iff.mp h

theorem spares_either (hc : (left.either right).WellScoped)
    (h : (left.either right).spares t.shape = true) :
    left.spares t.shape = true ∧ right.spares (left.sweep t).2.shape = true ∧
      t.Below (left.sweep t).2 ∧ (left.sweep t).2.Below ((left.either right).sweep t).2 := by
  obtain ⟨hspares, hkeeps⟩ := Bool.and_eq_true_iff.mp h
  obtain ⟨hone, hother⟩ := Bool.and_eq_true_iff.mp hspares
  obtain ⟨hkeepsOne, hkeepsOther⟩ := Bool.and_eq_true_iff.mp hkeeps
  rw [← shape_sweep_left hc t] at hother hkeepsOther
  exact ⟨hone, hother, left.below_sweep hc.1 hkeepsOne, right.below_sweep hc.2.1 hkeepsOther⟩

theorem shape_exit_eq_sweep (hc : first.WellScoped) (hshape : u.shape = t.shape)
    (hp : p ∈ first.paths number u) (hexit : p.exit = some v) :
    v.shape = (first.sweep t).2.shape := by
  rw [first.shape_exit hc hp hexit, first.shape_sweep hc, hshape]

end Paths

/-- Where a path ends, the sweep has everything that there is on the path. -/
theorem below_exit (c : Course) (hc : c.WellScoped) :
    ∀ (number : Nat) (t u : Track), u.shape = t.shape → u.Below t → c.spares t.shape = true →
      ∀ p ∈ c.paths number u, ∀ v, p.exit = some v → v.Below (c.sweep t).2 := by
  induction c with
  | step s =>
      intro number t u hshape hbelow _ p hp v hv
      obtain rfl := List.mem_singleton.mp hp
      obtain rfl := Option.some.inj hv
      exact (s.carries_run t.shape).below hshape rfl hbelow
  | write store values =>
      intro number t u hshape hbelow _ p hp v hv
      obtain rfl := List.mem_singleton.mp hp
      obtain rfl := Option.some.inj hv
      exact hbelow
  | andThen first next ihfirst ihnext =>
      intro number t u hshape hbelow h p hp v hv
      obtain ⟨hfirst, hnext⟩ := spares_andThen hc.1 h
      obtain ⟨middle, ⟨q, hq, hmiddle⟩, r, hr, hexit⟩ := exists_exit_andThen.mp ⟨p, hp, hv⟩
      have hbefore := ihfirst hc.1 number t u hshape hbelow hfirst q hq middle hmiddle
      have hsame := shape_exit_eq_sweep hc.1 hshape hq hmiddle
      exact ihnext hc.2 _ (first.sweep t).2 middle hsame hbefore hnext r hr v hexit
  | either left right ihleft ihright =>
      intro number t u hshape hbelow h p hp v hv
      obtain ⟨hleft, hright, hgrows, hafter⟩ := spares_either hc h
      rcases List.mem_append.mp hp with hp | hp
      · exact (ihleft hc.1 number t u hshape hbelow hleft p hp v hv).trans hafter
      · have hsame : u.shape = (left.sweep t).2.shape := hshape.trans (shape_sweep_left hc t).symm
        exact ihright hc.2.1 _ _ u hsame (hbelow.trans hgrows) hright p hp v hv
  | block inner ih =>
      intro number t u hshape hbelow h p hp w hw
      obtain ⟨v, ⟨q, hq, hv⟩, rfl⟩ := exists_exit_block.mp ⟨p, hp, hw⟩
      have henter : u.enter.shape = t.enter.shape := congrArg Scope.enter hshape
      have hbelowEnter := (Track.carries_enter t.shape).below hshape rfl hbelow
      have hinner := ih hc number t.enter u.enter henter hbelowEnter h q hq v hv
      have hwell : inner.WellScoped := hc
      exact (Track.carries_leave _).below (shape_exit_eq_sweep hwell henter hq hv) rfl hinner
  | cut beyond _ =>
      intro number t u _ _ _ p hp v hv
      obtain rfl := List.mem_singleton.mp hp
      cases hv

/-- A sweep covers the writes on a path that starts with no more than the sweep has. -/
theorem covered_sweep (c : Course) (hc : c.WellScoped) :
    ∀ (before : List (String × NameSet)) (t u : Track), u.shape = t.shape → u.Below t →
      c.spares t.shape = true → ∀ p ∈ c.paths before.length u, ∀ w ∈ p.writes,
        w.Covered (before ++ (c.sweep t).1) := by
  induction c with
  | step s =>
      intro before t u _ _ _ p hp w hw
      obtain rfl := List.mem_singleton.mp hp
      cases hw
  | write store values =>
      intro before t u hshape hbelow _ p hp w hw
      obtain rfl := List.mem_singleton.mp hp
      obtain rfl := List.mem_singleton.mp hw
      intro name hname
      refine ⟨t.written values, List.getElem?_concat_length, ?_⟩
      exact (Track.carried_written t.shape values).mono hshape rfl hbelow hname
  | andThen first next ihfirst ihnext =>
      intro before t u hshape hbelow h
      obtain ⟨hfirst, hnext⟩ := spares_andThen hc.1 h
      rw [sweep, ← List.append_assoc]
      refine forall_writes_andThen (fun p hp w hw => ?_) fun p hp v hv r hr w hw => ?_
      · exact (ihfirst hc.1 before t u hshape hbelow hfirst p hp w hw).append _
      · have hexit := first.below_exit hc.1 _ t u hshape hbelow hfirst p hp v hv
        have hsame := shape_exit_eq_sweep hc.1 hshape hp hv
        rw [← first.length_sweep t, ← List.length_append] at hr
        exact ihnext hc.2 _ (first.sweep t).2 v hsame hexit hnext r hr w hw
  | either left right ihleft ihright =>
      intro before t u hshape hbelow h p hp w hw
      obtain ⟨hleft, hright, hgrows, -⟩ := spares_either hc h
      rw [sweep, ← List.append_assoc]
      rcases List.mem_append.mp hp with hp | hp
      · exact (ihleft hc.1 before t u hshape hbelow hleft p hp w hw).append _
      · have hsame : u.shape = (left.sweep t).2.shape := hshape.trans (shape_sweep_left hc t).symm
        rw [← left.length_sweep t, ← List.length_append] at hp
        exact ihright hc.2.1 _ _ u hsame (hbelow.trans hgrows) hright p hp w hw
  | block inner ih =>
      intro before t u hshape hbelow h q hq w hw
      obtain ⟨p, hp, rfl⟩ := List.mem_map.mp hq
      have hbelowEnter := (Track.carries_enter t.shape).below hshape rfl hbelow
      exact ih hc before t.enter u.enter (congrArg Scope.enter hshape) hbelowEnter h p hp w hw
  | cut beyond _ =>
      intro before t u _ _ _ p hp w hw
      obtain rfl := List.mem_singleton.mp hp
      cases hw

end Course

end StoredProcedure
