import StoredProcedure.Proofs.Dependence

/-!
Dependences along an execution. A track says for each variable in scope what it depends on, and on
what it depends that execution comes here. Whatever is done to a track, a store gets to a place only
from the sources that are named or from places where it was before. This is what it means to be
`Carried`, and carried things are monotone.
-/

namespace StoredProcedure

/-- The variables in scope with what they depend on, and the stores that decided that execution
comes here. -/
structure Track where
  taints : Taints
  path : NameSet

/-- What may depend on a store: that execution comes here, or the variable in a slot. -/
inductive Place where
  | path
  | slot (slot : Nat)

namespace Track

/-- What values depend on. -/
def dependences (t : Track) (values : List Expr) : NameSet :=
  t.taints.dependences (Expr.sourcesList values)

/-- A value decides what is run from here on. -/
def guard (t : Track) (value : Expr) : Track :=
  { t with path := t.path ∪ t.dependences [value] }

/-- A new variable. -/
def declare (t : Track) (name : String) (value : Expr) : Track :=
  { t with taints := t.taints.add name (t.dependences [value]) }

/-- A variable is replaced, or it is changed in part and still depends on what it depended on. -/
def change (t : Track) (name : String) (whole : Bool) (values : List Expr) : Track :=
  { t with
    taints := t.taints.modify name fun taint =>
      if whole then t.dependences values else taint ∪ t.dependences values }

def enter (t : Track) : Track :=
  { t with taints := t.taints.enter }

def leave (t : Track) : Track :=
  { t with taints := t.taints.leave }

/-- What a change of a store depends on. -/
def written (t : Track) (values : List Expr) : NameSet :=
  t.dependences values ∪ t.path

/-- The names in scope. -/
def shape (t : Track) : Scope Unit :=
  t.taints.shape

/-- What is at a place depends on a store. -/
def Has (t : Track) (store : String) : Place → Prop
  | .path => store ∈ t.path
  | .slot slot => ∃ taint, t.taints.values[slot]? = some taint ∧ store ∈ taint

variable {t : Track} {store name : String}

theorem mem_dependences {values : List Expr} :
    store ∈ t.dependences values ↔
      .store store ∈ Expr.sourcesList values ∨
        ∃ name slot, .saved name ∈ Expr.sourcesList values ∧ t.shape.slot? name = some slot ∧
          t.Has store (.slot slot) := by
  rw [dependences, Taints.mem_dependences]
  constructor
  · rintro ⟨source, hsource, hstore⟩
    cases source with
    | store other =>
        rw [Source.dependences, NameSet.mem_singleton] at hstore
        subst hstore
        exact .inl hsource
    | saved name =>
        rw [Source.dependences] at hstore
        cases hvalue : t.taints.value? name with
        | none =>
            rw [hvalue] at hstore
            exact absurd hstore (NameSet.not_mem_empty store)
        | some taint =>
            rw [hvalue] at hstore
            obtain ⟨slot, hslot⟩ := Scope.exists_slot? hvalue
            have hshape : t.shape.slot? name = some slot := by rw [shape, Scope.slot?_shape, hslot]
            refine .inr ⟨name, slot, hsource, hshape, taint, ?_, hstore⟩
            rw [Scope.getElem?_values hslot, hvalue]
  · rintro (hsource | ⟨name, slot, hsource, hslot, taint, htaint, hstore⟩)
    · exact ⟨_, hsource, NameSet.mem_singleton.mpr rfl⟩
    · rw [shape, Scope.slot?_shape] at hslot
      rw [Scope.getElem?_values hslot] at htaint
      refine ⟨_, hsource, ?_⟩
      rwa [Source.dependences, htaint]

theorem has_guard {value : Expr} {place : Place} :
    (t.guard value).Has store place ↔
      t.Has store place ∨ (place = .path ∧ store ∈ t.dependences [value]) := by
  cases place with
  | path => simp [Has, guard]
  | slot slot => simp [Has, guard]

theorem has_declare {value : Expr} {place : Place} :
    (t.declare name value).Has store place ↔
      t.Has store place ∨
        (place = .slot t.shape.nextSlot ∧ store ∈ t.dependences [value]) := by
  cases place with
  | path => simp [Has, declare]
  | slot slot =>
      simp only [Has, declare, Scope.values_add, shape, Scope.nextSlot_shape, Place.slot.injEq]
      rw [← Scope.length_values]
      generalize t.taints.values = known
      rcases Nat.lt_trichotomy slot known.length with hlt | rfl | hgt
      · simp [List.getElem?_append_left hlt, Nat.ne_of_lt hlt]
      · simp
      · have hnone : (known ++ [t.dependences [value]])[slot]? = none := by
          rw [List.getElem?_eq_none_iff, List.length_append, List.length_singleton]
          omega
        simp [hnone, List.getElem?_eq_none (Nat.le_of_lt hgt), Nat.ne_of_gt hgt]

theorem has_enter {place : Place} : t.enter.Has store place ↔ t.Has store place := by
  cases place <;> rfl

theorem has_leave {slot : Nat} :
    t.leave.Has store (.slot slot) ↔
      slot < t.shape.leave.nextSlot ∧ t.Has store (.slot slot) := by
  have hlength : t.taints.values.length - t.taints.declared = t.shape.leave.nextSlot := by
    rw [shape, ← Scope.shape_leave, Scope.nextSlot_shape, Scope.length_values,
      ← Scope.nextSlot_leave t.taints, Nat.add_sub_cancel]
  simp only [Has, leave, Scope.values_leave, hlength, List.getElem?_take]
  split
  · simp [*]
  · simp [*]

theorem has_change_of_slot {whole : Bool} {values : List Expr} {changed slot : Nat}
    (hchanged : t.shape.slot? name = some changed) :
    (t.change name whole values).Has store (.slot slot) ↔
      ((slot ≠ changed ∨ whole = false) ∧ t.Has store (.slot slot)) ∨
        (slot = changed ∧ store ∈ t.dependences values) := by
  rw [shape, Scope.slot?_shape] at hchanged
  obtain ⟨old, hold⟩ := Scope.exists_value? hchanged
  have hlt : changed < t.taints.values.length := by
    rw [Scope.length_values]
    exact Scope.slot?_lt hchanged
  have hget : t.taints.values[changed]? = some old := by
    rw [Scope.getElem?_values hchanged, hold]
  simp only [Has, change, Scope.values_modify _ hchanged hold, List.getElem?_set]
  by_cases hslot : changed = slot
  · subst hslot
    rw [if_pos rfl, if_pos hlt]
    cases whole <;> simp [hget]
  · simp [hslot, Ne.symm hslot]

theorem has_change_of_none {whole : Bool} {values : List Expr} {place : Place}
    (hname : t.shape.slot? name = none) :
    (t.change name whole values).Has store place ↔ t.Has store place := by
  rw [shape, Scope.slot?_shape] at hname
  cases place with
  | path => rfl
  | slot slot => simp only [Has, change, Scope.values_modify_of_none _ hname]

/-- Where the names in scope are `shape`, a store has a property from the start or because it is at
some place. -/
def Carried (shape : Scope Unit) (holds : Track → String → Prop) : Prop :=
  ∃ (stores : String → Prop) (places : Place → Prop), ∀ t : Track, t.shape = shape → ∀ store,
    holds t store ↔ stores store ∨ ∃ place, places place ∧ t.Has store place

section Carried

variable {shape after final : Scope Unit} {holds other : Track → String → Prop}

theorem carried_has (shape : Scope Unit) (place : Place) :
    Carried shape fun t store => t.Has store place :=
  ⟨fun _ => False, (· = place), fun t _ store => by simp⟩

theorem carried_stores (shape : Scope Unit) (stores : String → Prop) :
    Carried shape fun _ store => stores store :=
  ⟨stores, fun _ => False, fun t _ store => by simp⟩

theorem Carried.congr (hother : Carried shape other)
    (h : ∀ t : Track, t.shape = shape → ∀ store, holds t store ↔ other t store) :
    Carried shape holds := by
  obtain ⟨stores, places, hlaw⟩ := hother
  exact ⟨stores, places, fun t ht store => (h t ht store).trans (hlaw t ht store)⟩

theorem Carried.or (hholds : Carried shape holds) (hother : Carried shape other) :
    Carried shape fun t store => holds t store ∨ other t store := by
  obtain ⟨stores, places, hlaw⟩ := hholds
  obtain ⟨more, others, hmore⟩ := hother
  refine ⟨fun store => stores store ∨ more store, fun place => places place ∨ others place,
    fun t ht store => ?_⟩
  simp only [hlaw t ht store, hmore t ht store, or_and_right, exists_or]
  exact or_or_or_comm

theorem Carried.and (hholds : Carried shape holds) (fixed : Prop) :
    Carried shape fun t store => fixed ∧ holds t store := by
  obtain ⟨stores, places, hlaw⟩ := hholds
  refine ⟨fun store => fixed ∧ stores store, fun place => fixed ∧ places place,
    fun t ht store => ?_⟩
  simp only [hlaw t ht store, and_or_left, and_assoc, exists_and_left]

theorem Carried.exists {ι : Type} {holds : ι → Track → String → Prop}
    (h : ∀ i, Carried shape (holds i)) : Carried shape fun t store => ∃ i, holds i t store := by
  choose stores places hlaw using h
  refine ⟨fun store => ∃ i, stores i store, fun place => ∃ i, places i place,
    fun t ht store => ?_⟩
  simp only [hlaw _ t ht store, exists_or]
  rw [exists_comm]
  simp only [exists_and_right]

theorem carried_dependences (shape : Scope Unit) (values : List Expr) :
    Carried shape fun t store => store ∈ t.dependences values := by
  have hsaved : Carried shape fun t store => ∃ name slot,
      (.saved name ∈ Expr.sourcesList values ∧ shape.slot? name = some slot) ∧
        t.Has store (.slot slot) :=
    .exists fun name => .exists fun slot => (carried_has shape (.slot slot)).and _
  refine ((carried_stores shape (.store · ∈ Expr.sourcesList values)).or hsaved).congr
    fun t ht store => ?_
  rw [mem_dependences, ht]
  simp only [and_assoc]

theorem carried_written (shape : Scope Unit) (values : List Expr) :
    Carried shape fun t store => store ∈ t.written values := by
  refine ((carried_dependences shape values).or (carried_has shape .path)).congr fun t _ store => ?_
  rw [written, NameSet.mem_union]
  rfl

theorem Carried.mono (h : Carried shape holds) {t u : Track} (ht : t.shape = shape)
    (hu : u.shape = shape) (hle : ∀ store place, t.Has store place → u.Has store place)
    {store : String} (hstore : holds t store) : holds u store := by
  obtain ⟨stores, places, hlaw⟩ := h
  rw [hlaw t ht] at hstore
  rw [hlaw u hu]
  rcases hstore with hstore | ⟨place, hplace, hhas⟩
  · exact .inl hstore
  · exact .inr ⟨place, hplace, hle store place hhas⟩

/-- A change of tracks after which each place holds what is carried there. -/
structure Carries (shape after : Scope Unit) (f : Track → Track) : Prop where
  shape_eq : ∀ t : Track, t.shape = shape → (f t).shape = after
  has : ∀ place, Carried shape fun t store => (f t).Has store place

theorem Carried.comp {f : Track → Track} (hf : Carries shape after f)
    (h : Carried after holds) : Carried shape fun t store => holds (f t) store := by
  obtain ⟨stores, places, hlaw⟩ := h
  have hplaces : Carried shape fun t store => ∃ place, places place ∧ (f t).Has store place :=
    .exists fun place => (hf.has place).and _
  exact ((carried_stores shape stores).or hplaces).congr
    fun t ht store => hlaw (f t) (hf.shape_eq t ht) store

theorem Carries.comp {f g : Track → Track} (hf : Carries shape after f)
    (hg : Carries after final g) : Carries shape final fun t => g (f t) where
  shape_eq t ht := hg.shape_eq _ (hf.shape_eq t ht)
  has place := (hg.has place).comp hf

theorem carries_id (shape : Scope Unit) : Carries shape shape fun t => t :=
  ⟨fun _ ht => ht, carried_has shape⟩

theorem carries_guard (shape : Scope Unit) (value : Expr) :
    Carries shape shape (·.guard value) where
  shape_eq _ ht := ht
  has place := ((carried_has shape place).or ((carried_dependences shape [value]).and _)).congr
    fun _ _ _ => has_guard

theorem carries_declare (shape : Scope Unit) (name : String) (value : Expr) :
    Carries shape (shape.add name ()) (·.declare name value) where
  shape_eq t ht := by
    rw [← ht]
    rfl
  has place := by
    refine ((carried_has shape place).or
      ((carried_dependences shape [value]).and (place = .slot shape.nextSlot))).congr
      fun t ht store => ?_
    rw [has_declare, ht]

theorem carries_change (shape : Scope Unit) (name : String) (whole : Bool) (values : List Expr) :
    Carries shape shape (·.change name whole values) where
  shape_eq t ht := by
    rw [← ht]
    exact Scope.shape_modify _ _ _
  has place := by
    cases hname : shape.slot? name with
    | none =>
        refine (carried_has shape place).congr fun t ht store => ?_
        exact has_change_of_none (by rw [ht, hname])
    | some changed =>
        cases place with
        | path => exact carried_has shape .path
        | slot slot =>
            have hkept := (carried_has shape (.slot slot)).and (slot ≠ changed ∨ whole = false)
            have hnew := (carried_dependences shape values).and (slot = changed)
            refine (hkept.or hnew).congr fun t ht store => ?_
            exact has_change_of_slot (by rw [ht, hname])

theorem carries_enter (shape : Scope Unit) : Carries shape shape.enter enter where
  shape_eq t ht := by
    rw [← ht]
    rfl
  has place := (carried_has shape place).congr fun _ _ _ => has_enter

theorem carries_leave (shape : Scope Unit) : Carries shape shape.leave leave where
  shape_eq t ht := by
    rw [← ht]
    exact Scope.shape_leave _
  has place := by
    cases place with
    | path => exact carried_has shape .path
    | slot slot =>
        refine ((carried_has shape (.slot slot)).and (slot < shape.leave.nextSlot)).congr
          fun t ht store => ?_
        rw [has_leave, ht]

end Carried

end Track

end StoredProcedure
