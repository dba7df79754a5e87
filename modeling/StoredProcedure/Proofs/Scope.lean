import StoredProcedure.Scope

namespace StoredProcedure.Scope

variable {α : Type}

/-- The names alone. -/
def shape (s : Scope α) : Scope Unit :=
  ⟨s.inner.map fun v => (v.1, ()), s.outer.map fun scope => scope.map fun v => (v.1, ())⟩

/-- What is known about the variables, by slot. -/
def values (s : Scope α) : List α :=
  (s.live.map Prod.snd).reverse

@[simp] theorem shape_add (s : Scope α) (name : String) (value : α) :
    (s.add name value).shape = s.shape.add name () := rfl

@[simp] theorem shape_enter (s : Scope α) : s.enter.shape = s.shape.enter := rfl

@[simp] theorem shape_leave (s : Scope α) : s.leave.shape = s.shape.leave := by
  rcases s with ⟨inner, _ | ⟨scope, outer⟩⟩ <;> rfl

@[simp] theorem declared_shape (s : Scope α) : s.shape.declared = s.declared :=
  List.length_map _

theorem live_shape (s : Scope α) : s.shape.live = s.live.map fun v => (v.1, ()) := by
  simp only [live, shape, List.map_append, List.map_flatten]

@[simp] theorem nextSlot_shape (s : Scope α) : s.shape.nextSlot = s.nextSlot := by
  rw [nextSlot, live_shape, List.length_map, nextSlot]

theorem map_fst_modifyIn (name : String) (f : α → α) (vars : List (String × α)) :
    (modifyIn name f vars).map Prod.fst = vars.map Prod.fst := by
  induction vars with
  | nil => rfl
  | cons var rest ih =>
      rw [modifyIn]
      split
      · rfl
      · rw [List.map_cons, List.map_cons, ih]

theorem modifyIn_append (name : String) (f : α → α) (vars more : List (String × α)) :
    modifyIn name f (vars ++ more) =
      if (valueIn name vars).isSome then modifyIn name f vars ++ more
      else vars ++ modifyIn name f more := by
  induction vars with
  | nil => rfl
  | cons var rest ih =>
      rw [List.cons_append, modifyIn, modifyIn, valueIn]
      split
      · rfl
      · rw [ih]
        split <;> rfl

theorem flatten_modifyOuter (name : String) (f : α → α) (outer : List (List (String × α))) :
    (modifyOuter name f outer).flatten = modifyIn name f outer.flatten := by
  induction outer with
  | nil => rfl
  | cons scope rest ih =>
      rw [modifyOuter, List.flatten_cons, modifyIn_append]
      split
      · rfl
      · rw [List.flatten_cons, ih]

/-- A change reaches the last variable of the name, in whatever scope it is. -/
theorem live_modify (s : Scope α) (name : String) (f : α → α) :
    (s.modify name f).live = modifyIn name f s.live := by
  rw [modify, show s.live = s.inner ++ s.outer.flatten from rfl, modifyIn_append]
  split
  · rfl
  · rw [live, flatten_modifyOuter]

theorem map_shape_modifyIn (name : String) (f : α → α) (vars : List (String × α)) :
    ((modifyIn name f vars).map fun v => (v.1, ())) = vars.map fun v => (v.1, ()) := by
  have h := congrArg (List.map fun name => (name, ())) (map_fst_modifyIn name f vars)
  simpa only [List.map_map, Function.comp_def] using h

@[simp] theorem shape_modify (s : Scope α) (name : String) (f : α → α) :
    (s.modify name f).shape = s.shape := by
  have houter : ∀ outer : List (List (String × α)),
      ((modifyOuter name f outer).map fun scope => scope.map fun v => (v.1, ())) =
        outer.map fun scope => scope.map fun v => (v.1, ()) := by
    intro outer
    induction outer with
    | nil => rfl
    | cons scope rest ih =>
        rw [modifyOuter]
        split
        · rw [List.map_cons, map_shape_modifyIn, List.map_cons]
        · rw [List.map_cons, ih, List.map_cons]
  rw [modify]
  split
  · rw [shape, map_shape_modifyIn, shape]
  · rw [shape, houter, shape]

theorem slotIn_shape (name : String) (vars : List (String × α)) :
    slotIn name (vars.map fun v => (v.1, ())) = slotIn name vars := by
  induction vars with
  | nil => rfl
  | cons var rest ih => simp only [List.map_cons, slotIn, List.length_map, ih]

@[simp] theorem slot?_shape (s : Scope α) (name : String) : s.shape.slot? name = s.slot? name := by
  rw [slot?, live_shape, slotIn_shape, slot?]

theorem slotIn_lt {name : String} {vars : List (String × α)} {slot : Nat}
    (h : slotIn name vars = some slot) : slot < vars.length := by
  induction vars with
  | nil => cases h
  | cons var rest ih =>
      rw [slotIn] at h
      split at h
      · obtain rfl := Option.some.inj h
        exact Nat.lt_succ_self _
      · exact Nat.lt_succ_of_lt (ih h)

theorem slot?_lt {s : Scope α} {name : String} {slot : Nat} (h : s.slot? name = some slot) :
    slot < s.nextSlot :=
  slotIn_lt h

@[simp] theorem length_values (s : Scope α) : s.values.length = s.nextSlot := by
  rw [values, List.length_reverse, List.length_map, nextSlot]

@[simp] theorem values_add (s : Scope α) (name : String) (value : α) :
    (s.add name value).values = s.values ++ [value] := by
  rw [values, live_add, List.map_cons, List.reverse_cons, values]

@[simp] theorem values_enter (s : Scope α) : s.enter.values = s.values := rfl

theorem getElem?_values {s : Scope α} {name : String} {slot : Nat}
    (h : s.slot? name = some slot) : s.values[slot]? = s.value? name := by
  have hvars : ∀ vars : List (String × α), slotIn name vars = some slot →
      (vars.map Prod.snd).reverse[slot]? = valueIn name vars := by
    intro vars h
    induction vars with
    | nil => cases h
    | cons var rest ih =>
        rw [slotIn] at h
        rw [valueIn, List.map_cons, List.reverse_cons]
        split at h
        · obtain rfl := Option.some.inj h
          rw [if_pos ‹_›, List.getElem?_append_right (by simp)]
          simp
        · rw [if_neg ‹_›, List.getElem?_append_left (by simpa using slotIn_lt h), ih h]
  exact hvars s.live h

theorem modifyIn_eq_of_valueIn {name : String} {f : α → α} {value : α}
    {vars : List (String × α)} (h : valueIn name vars = some value) :
    modifyIn name f vars = modifyIn name (fun _ => f value) vars := by
  induction vars with
  | nil => rfl
  | cons var rest ih =>
      rw [valueIn] at h
      rw [modifyIn, modifyIn]
      split at h
      · rw [if_pos ‹_›, if_pos ‹_›, Option.some.inj h]
      · rw [if_neg ‹_›, if_neg ‹_›, ih h]

theorem values_modify {s : Scope α} {name : String} {slot : Nat} {value : α} (f : α → α)
    (h : s.slot? name = some slot) (hvalue : s.value? name = some value) :
    (s.modify name f).values = s.values.set slot (f value) := by
  have hvars : ∀ vars : List (String × α), slotIn name vars = some slot →
      ((modifyIn name (fun _ => f value) vars).map Prod.snd).reverse =
        (vars.map Prod.snd).reverse.set slot (f value) := by
    intro vars h
    induction vars with
    | nil => cases h
    | cons var rest ih =>
        rw [slotIn] at h
        rw [modifyIn]
        split at h
        · obtain rfl := Option.some.inj h
          rw [if_pos ‹_›, List.map_cons, List.map_cons, List.reverse_cons, List.reverse_cons,
            List.set_append_right _ _ (by simp)]
          simp
        · rw [if_neg ‹_›, List.map_cons, List.map_cons, List.reverse_cons, List.reverse_cons,
            List.set_append_left _ _ (by simpa using slotIn_lt h), ih h]
  rw [values, live_modify, modifyIn_eq_of_valueIn hvalue]
  exact hvars s.live h

theorem values_modify_of_none {s : Scope α} {name : String} (f : α → α)
    (h : s.slot? name = none) : (s.modify name f).values = s.values := by
  have hvars : ∀ vars : List (String × α), slotIn name vars = none →
      modifyIn name f vars = vars := by
    intro vars h
    induction vars with
    | nil => rfl
    | cons var rest ih =>
        rw [slotIn] at h
        split at h
        · cases h
        · rw [modifyIn, if_neg ‹_›, ih h]
  rw [values, live_modify, hvars s.live h, values]

theorem exists_value? {s : Scope α} {name : String} {slot : Nat} (h : s.slot? name = some slot) :
    ∃ value, s.value? name = some value := by
  refine ⟨s.values.get ⟨slot, ?_⟩, ?_⟩
  · rw [length_values]
    exact slot?_lt h
  · rw [← getElem?_values h, List.get_eq_getElem, List.getElem?_eq_getElem]

theorem exists_slot? {s : Scope α} {name : String} {value : α} (h : s.value? name = some value) :
    ∃ slot, s.slot? name = some slot := by
  have hvars : ∀ vars : List (String × α), valueIn name vars = some value →
      ∃ slot, slotIn name vars = some slot := by
    intro vars h
    induction vars with
    | nil => cases h
    | cons var rest ih =>
        rw [valueIn] at h
        rw [slotIn]
        split at h
        · exact ⟨_, if_pos ‹_›⟩
        · rw [if_neg ‹_›]
          exact ih h
  exact hvars s.live h

/-- The names of the live variables, the last declared first. -/
def names (s : Scope α) : List String :=
  s.live.map Prod.fst

@[simp] theorem names_add (s : Scope α) (name : String) (value : α) :
    (s.add name value).names = name :: s.names := rfl

@[simp] theorem names_enter (s : Scope α) : s.enter.names = s.names := rfl

@[simp] theorem names_shape (s : Scope α) : s.shape.names = s.names := by
  rw [names, live_shape, List.map_map, names]
  rfl

theorem exists_slot?_iff {s : Scope α} {name : String} :
    (∃ slot, s.slot? name = some slot) ↔ name ∈ s.names := by
  rw [slot?, names]
  induction s.live with
  | nil => simp [slotIn]
  | cons var rest ih =>
      rw [slotIn, List.map_cons, List.mem_cons, ← ih]
      by_cases hname : var.1 = name
      · simp [hname]
      · simp [hname, Ne.symm hname]

theorem exists_value?_iff {s : Scope α} {name : String} :
    (∃ value, s.value? name = some value) ↔ name ∈ s.names := by
  rw [← exists_slot?_iff]
  constructor
  · rintro ⟨value, hvalue⟩
    exact exists_slot? hvalue
  · rintro ⟨slot, hslot⟩
    exact exists_value? hslot

theorem live_eq_append (s : Scope α) : s.live = s.inner ++ s.leave.live := by
  rcases s with ⟨inner, _ | ⟨scope, outer⟩⟩ <;> rfl

theorem values_leave (s : Scope α) :
    s.leave.values = s.values.take (s.values.length - s.declared) := by
  have hvalues : s.values = s.leave.values ++ (s.inner.map Prod.snd).reverse := by
    rw [values, live_eq_append, List.map_append, List.reverse_append, values]
  rw [hvalues, List.length_append, List.length_reverse, List.length_map, declared,
    Nat.add_sub_cancel, List.take_left]

theorem nextSlot_leave (s : Scope α) : s.leave.nextSlot + s.declared = s.nextSlot := by
  rw [nextSlot, nextSlot, s.live_eq_append, List.length_append, declared, Nat.add_comm]

theorem declared_le_nextSlot (s : Scope α) : s.declared ≤ s.nextSlot := by
  rw [← nextSlot_leave]
  exact Nat.le_add_left _ _

end StoredProcedure.Scope
