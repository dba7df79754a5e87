import StoredProcedure.Proofs.Track

namespace StoredProcedure

namespace Scope

variable {α : Type}

def zipVars (f : α → α → α) : List (String × α) → List (String × α) → List (String × α) :=
  List.zipWith fun v w => (v.1, f v.2 w.2)

/-- Two scopes with the same names, combined variable by variable. -/
def zipWith (f : α → α → α) (s t : Scope α) : Scope α :=
  ⟨zipVars f s.inner t.inner, List.zipWith (zipVars f) s.outer t.outer⟩

theorem shape_zipVars (f : α → α → α) :
    ∀ vars others : List (String × α),
      (vars.map fun v => (v.1, ())) = (others.map fun v => (v.1, ())) →
        ((zipVars f vars others).map fun v => (v.1, ())) = vars.map fun v => (v.1, ()) := by
  intro vars
  induction vars with
  | nil =>
      intro others _
      rfl
  | cons var rest ih =>
      intro others h
      cases others with
      | nil => cases h
      | cons other more => exact congrArg ((var.1, ()) :: ·) (ih more (List.cons.inj h).2)

theorem shape_zipWith (f : α → α → α) {s t : Scope α} (h : s.shape = t.shape) :
    (zipWith f s t).shape = s.shape := by
  have houter : ∀ outer others : List (List (String × α)),
      (outer.map fun scope => scope.map fun v => (v.1, ())) =
          (others.map fun scope => scope.map fun v => (v.1, ())) →
        ((List.zipWith (zipVars f) outer others).map fun scope => scope.map fun v => (v.1, ())) =
          outer.map fun scope => scope.map fun v => (v.1, ()) := by
    intro outer
    induction outer with
    | nil =>
        intro others _
        rfl
    | cons scope rest ih =>
        intro others h
        cases others with
        | nil => cases h
        | cons other more =>
            obtain ⟨hscope, hrest⟩ := List.cons.inj h
            rw [List.zipWith_cons_cons, List.map_cons, List.map_cons, ih more hrest,
              shape_zipVars f scope other hscope]
  obtain ⟨hinner, hothers⟩ := Scope.mk.inj h
  rw [shape, zipWith, shape_zipVars f _ _ hinner, houter _ _ hothers, shape]

theorem flatten_zipVars (f : α → α → α) :
    ∀ outer others : List (List (String × α)),
      (outer.map fun scope => scope.map fun v => (v.1, ())) =
          (others.map fun scope => scope.map fun v => (v.1, ())) →
        (List.zipWith (zipVars f) outer others).flatten =
          zipVars f outer.flatten others.flatten := by
  intro outer
  induction outer with
  | nil =>
      intro others _
      rfl
  | cons scope rest ih =>
      intro others h
      cases others with
      | nil => cases h
      | cons other more =>
          obtain ⟨hscope, hrest⟩ := List.cons.inj h
          have hlength : scope.length = other.length := by
            simpa using congrArg List.length hscope
          rw [List.zipWith_cons_cons, List.flatten_cons, ih more hrest, List.flatten_cons,
            List.flatten_cons, zipVars, List.zipWith_append hlength]

theorem values_zipWith (f : α → α → α) {s t : Scope α} (h : s.shape = t.shape) :
    (zipWith f s t).values = List.zipWith f s.values t.values := by
  obtain ⟨hinner, houter⟩ := Scope.mk.inj h
  have hlength : s.inner.length = t.inner.length := by
    simpa using congrArg List.length hinner
  have hlive : (zipWith f s t).live = zipVars f s.live t.live := by
    rw [live, zipWith, flatten_zipVars f _ _ houter, live, live, zipVars,
      List.zipWith_append hlength]
  have hlengths : (s.live.map Prod.snd).length = (t.live.map Prod.snd).length := by
    have hnext : s.nextSlot = t.nextSlot := by
      rw [← nextSlot_shape, h, nextSlot_shape]
    rw [List.length_map, List.length_map]
    exact hnext
  rw [values, hlive, values, values, ← List.reverse_zipWith hlengths, zipVars, List.map_zipWith,
    List.zipWith_map]

end Scope

namespace Track

def join (t u : Track) : Track :=
  ⟨t.taints.zipWith (· ∪ ·) u.taints, t.path ∪ u.path⟩

/-- The join of two tracks if there are two. -/
def joinOption : Option Track → Option Track → Option Track
  | none, u => u
  | some t, none => some t
  | some t, some u => some (t.join u)

theorem shape_join {t u : Track} (h : t.shape = u.shape) : (t.join u).shape = t.shape :=
  Scope.shape_zipWith _ h

theorem has_join {t u : Track} (h : t.shape = u.shape) {store : String} {place : Place} :
    (t.join u).Has store place ↔ t.Has store place ∨ u.Has store place := by
  cases place with
  | path => exact NameSet.mem_union
  | slot slot =>
      have hlength : t.taints.values.length = u.taints.values.length := by
        rw [Scope.length_values, Scope.length_values, ← Scope.nextSlot_shape,
          ← u.taints.nextSlot_shape]
        exact congrArg Scope.nextSlot h
      simp only [Has, join, Scope.values_zipWith _ h, List.getElem?_zipWith]
      rcases Nat.lt_or_ge slot t.taints.values.length with hlt | hge
      · rw [List.getElem?_eq_getElem hlt, List.getElem?_eq_getElem (hlength ▸ hlt)]
        simp
      · rw [List.getElem?_eq_none hge, List.getElem?_eq_none (hlength ▸ hge)]
        simp

/-- A track is the join of the tracks of a class, all of which have the same names in scope. -/
def Joins (shape : Scope Unit) (among : Track → Prop) : Option Track → Prop
  | none => ∀ t, ¬ among t
  | some joined => joined.shape = shape ∧ (∃ t, among t) ∧ (∀ t, among t → t.shape = shape) ∧
      ∀ store place, joined.Has store place ↔ ∃ t, among t ∧ t.Has store place

variable {shape after : Scope Unit} {among others : Track → Prop} {joined other : Option Track}

theorem Joins.congr (h : Joins shape among joined) (hsame : ∀ t, others t ↔ among t) :
    Joins shape others joined := by
  rwa [show others = among from funext fun t => propext (hsame t)]

theorem Joins.shape_eq (h : Joins shape among joined) {t : Track} (ht : among t) :
    t.shape = shape := by
  cases joined with
  | none => exact absurd ht (h t)
  | some track => exact h.2.2.1 t ht

theorem joins_self (t : Track) : Joins t.shape (· = t) (some t) := by
  refine ⟨rfl, ⟨t, rfl⟩, fun u hu => congrArg shape hu, fun store place => ?_⟩
  simp only [exists_eq_left]

theorem Joins.exists_iff (h : Joins shape among joined) {holds : Track → String → Prop}
    (hholds : Carried shape holds) (store : String) :
    (∃ track, joined = some track ∧ holds track store) ↔ ∃ t, among t ∧ holds t store := by
  cases joined with
  | none =>
      refine iff_of_false (by simp) ?_
      rintro ⟨t, ht, -⟩
      exact h t ht
  | some track =>
      obtain ⟨hshape, ⟨some, hsome⟩, hall, hhas⟩ := h
      obtain ⟨stores, places, hlaw⟩ := hholds
      constructor
      · rintro ⟨_, ⟨⟩, hstore⟩
        rcases (hlaw track hshape store).mp hstore with hstore | ⟨place, hplace, hplaced⟩
        · exact ⟨some, hsome, (hlaw some (hall some hsome) store).mpr (.inl hstore)⟩
        · obtain ⟨t, ht, hthas⟩ := (hhas store place).mp hplaced
          exact ⟨t, ht, (hlaw t (hall t ht) store).mpr (.inr ⟨place, hplace, hthas⟩)⟩
      · rintro ⟨t, ht, hstore⟩
        refine ⟨track, rfl, (hlaw track hshape store).mpr ?_⟩
        rcases (hlaw t (hall t ht) store).mp hstore with hstore | ⟨place, hplace, hplaced⟩
        · exact .inl hstore
        · exact .inr ⟨place, hplace, (hhas store place).mpr ⟨t, ht, hplaced⟩⟩

theorem Joins.map {f : Track → Track} (h : Joins shape among joined)
    (hf : Carries shape after f) :
    Joins after (fun u => ∃ t, among t ∧ u = f t) (joined.map f) := by
  cases joined with
  | none =>
      rintro u ⟨t, ht, -⟩
      exact h t ht
  | some track =>
      refine ⟨hf.shape_eq track h.1, ?_, ?_, fun store place => ?_⟩
      · obtain ⟨t, ht⟩ := h.2.1
        exact ⟨f t, t, ht, rfl⟩
      · rintro u ⟨t, ht, rfl⟩
        exact hf.shape_eq t (h.shape_eq ht)
      · have hplace := h.exists_iff (hf.has place) store
        simp only [Option.some.injEq, exists_eq_left'] at hplace
        rw [hplace]
        constructor
        · rintro ⟨t, ht, hhas⟩
          exact ⟨f t, ⟨t, ht, rfl⟩, hhas⟩
        · rintro ⟨_, ⟨t, ht, rfl⟩, hhas⟩
          exact ⟨t, ht, hhas⟩

theorem Joins.or (h : Joins shape among joined) (hother : Joins shape others other) :
    Joins shape (fun t => among t ∨ others t) (joinOption joined other) := by
  cases joined with
  | none => exact hother.congr fun t => or_iff_right (h t)
  | some track =>
      cases other with
      | none =>
          have hsame : ∀ t, among t ∨ others t ↔ among t := fun t => or_iff_left (hother t)
          exact h.congr hsame
      | some last =>
          obtain ⟨hshape, ⟨t, ht⟩, hall, hhas⟩ := h
          obtain ⟨hlast, -, hothers, hlasthas⟩ := hother
          have hsame : track.shape = last.shape := hshape.trans hlast.symm
          refine ⟨(shape_join hsame).trans hshape, ⟨t, .inl ht⟩, ?_, fun store place => ?_⟩
          · rintro u (hu | hu)
            · exact hall u hu
            · exact hothers u hu
          · rw [has_join hsame, hhas, hlasthas]
            simp only [or_and_right, exists_or]

end Track

end StoredProcedure
