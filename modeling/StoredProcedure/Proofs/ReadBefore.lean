import StoredProcedure.Proofs.Walk

namespace StoredProcedure

namespace Track

/-- Every store that something depends on is known. -/
def Within (t : Track) (known : String → Prop) : Prop :=
  ∀ store place, t.Has store place → known store

variable {t : Track} {store : String} {values : List Expr}

theorem has_of_mem_dependences (h : store ∈ t.dependences values) :
    .store store ∈ Expr.sourcesList values ∨ ∃ slot, t.Has store (.slot slot) := by
  rcases mem_dependences.mp h with hsource | ⟨_, slot, -, -, hslot⟩
  · exact .inl hsource
  · exact .inr ⟨slot, hslot⟩

theorem has_of_mem_written (h : store ∈ t.written values) :
    .store store ∈ Expr.sourcesList values ∨ ∃ place, t.Has store place := by
  rcases NameSet.mem_union.mp h with hvalues | hpath
  · rcases has_of_mem_dependences hvalues with hsource | ⟨slot, hslot⟩
    · exact .inl hsource
    · exact .inr ⟨_, hslot⟩
  · exact .inr ⟨.path, hpath⟩

/-- After a change of tracks, stores are at places only because some values read them or because
they were at some place before. -/
def Adds (values : List Expr) (change : Track → Track) : Prop :=
  ∀ t store place, (change t).Has store place →
    .store store ∈ Expr.sourcesList values ∨ ∃ before, t.Has store before

theorem adds_id : Adds values id :=
  fun _ _ place h => .inr ⟨place, h⟩

theorem adds_enter : Adds values enter :=
  fun _ _ place h => .inr ⟨place, has_enter.mp h⟩

theorem adds_leave : Adds values leave := by
  intro t store place h
  cases place with
  | path => exact .inr ⟨.path, h⟩
  | slot slot => exact .inr ⟨.slot slot, (has_leave.mp h).2⟩

theorem adds_guard (value : Expr) : Adds [value] (·.guard value) := by
  intro t store place h
  rcases has_guard.mp h with hbefore | ⟨-, hvalue⟩
  · exact .inr ⟨place, hbefore⟩
  · exact (has_of_mem_dependences hvalue).imp_right fun ⟨slot, hslot⟩ => ⟨_, hslot⟩

theorem adds_declare (name : String) (value : Expr) : Adds [value] (·.declare name value) := by
  intro t store place h
  rcases has_declare.mp h with hbefore | ⟨-, hvalue⟩
  · exact .inr ⟨place, hbefore⟩
  · exact (has_of_mem_dependences hvalue).imp_right fun ⟨slot, hslot⟩ => ⟨_, hslot⟩

theorem adds_change (name : String) (whole : Bool) (values : List Expr) :
    Adds values (·.change name whole values) := by
  intro t store place h
  cases hname : t.shape.slot? name with
  | none => exact .inr ⟨place, (has_change_of_none hname).mp h⟩
  | some changed =>
      cases place with
      | path => exact .inr ⟨.path, h⟩
      | slot slot =>
          rcases (has_change_of_slot hname).mp h with ⟨-, hbefore⟩ | ⟨-, hvalues⟩
          · exact .inr ⟨_, hbefore⟩
          · exact (has_of_mem_dependences hvalues).imp_right fun ⟨slot, hslot⟩ => ⟨_, hslot⟩

theorem Adds.comp {change more : Track → Track} (h : Adds values change)
    (hmore : Adds values more) : Adds values fun t => more (change t) := by
  intro t store place hplace
  rcases hmore _ store place hplace with hsource | ⟨before, hbefore⟩
  · exact .inl hsource
  · exact h t store before hbefore

end Track

theorem Source.get_mem_gets {sources : List Source} {store : String} :
    .get store ∈ gets sources ↔ .store store ∈ sources := by
  rw [gets, List.mem_filterMap]
  constructor
  · rintro ⟨source, hsource, hget⟩
    cases source with
    | store name =>
        cases hget
        exact hsource
    | saved name => cases hget
  · intro hsource
    exact ⟨_, hsource, rfl⟩

namespace Walk

/-- From a track where only known stores are at places, every store that an action depends on is
known or was read before it, and so is every store that is at a place afterwards. -/
def Grounded (walk : Walk) : Prop :=
  ∀ (known : String → Prop) (t : Track), t.Within known →
    (∀ k store, Action.Recorded (walk t).1 k store →
      known store ∨ .get store ∈ (walk t).1.take k) ∧
    (walk t).2.Within fun store => known store ∨ .get store ∈ (walk t).1

theorem Grounded.andThen {first next : Walk} (hfirst : first.Grounded) (hnext : next.Grounded) :
    (first.andThen next).Grounded := by
  intro known t ht
  obtain ⟨hrecorded, hwithin⟩ := hfirst known t ht
  obtain ⟨hmore, hafter⟩ := hnext _ _ hwithin
  refine ⟨fun k store hstore => ?_, fun store place hplace => ?_⟩
  · rw [Walk.andThen, Action.recorded_append] at hstore
    rw [Walk.andThen, List.take_append, List.mem_append]
    rcases hstore with hstore | ⟨hle, hstore⟩
    · exact (hrecorded k store hstore).imp_right .inl
    · rw [List.take_of_length_le hle]
      exact or_assoc.mp (hmore _ store hstore)
  · rcases hafter store place hplace with (hknown | hread) | hread
    · exact .inl hknown
    · exact .inr (List.mem_append_left _ hread)
    · exact .inr (List.mem_append_right _ hread)

theorem grounded_read {values : List Expr} {change : Track → Track}
    (h : Track.Adds values change) : (read values change).Grounded := by
  intro known t ht
  refine ⟨fun k store hstore => absurd hstore not_recorded_gets, fun store place hplace => ?_⟩
  rcases h t store place hplace with hsource | ⟨before, hbefore⟩
  · exact .inr (Source.get_mem_gets.mpr hsource)
  · exact .inl (ht store before hbefore)

theorem grounded_round (source : Expr) (item : String) : (round source item).Grounded :=
  grounded_read (((Track.adds_guard source).comp Track.adds_enter).comp
    (Track.adds_declare item source))

theorem grounded_write (store : String) (values : List Expr) : (write store values).Grounded := by
  intro known t ht
  refine ⟨fun k other hother => ?_, fun other place hplace => .inl (ht other place hplace)⟩
  rw [write, Action.recorded_append, or_iff_right not_recorded_gets,
    Action.recorded_singleton] at hother
  obtain ⟨hle, -, hwritten⟩ := hother
  rw [write, List.take_append, List.take_of_length_le hle, List.mem_append]
  rcases Track.has_of_mem_written hwritten with hsource | ⟨place, hplace⟩
  · exact .inr (.inl (Source.get_mem_gets.mpr hsource))
  · exact .inl (ht other place hplace)

end Walk

theorem Guard.grounded_visit (guard : Guard) : guard.visit.Grounded := by
  cases guard with
  | when condition => exact Walk.grounded_read (Track.adds_guard condition)
  | otherwise => exact Walk.grounded_read Track.adds_id
  | lastly => exact Walk.grounded_read Track.adds_id

namespace Statement

mutual
theorem grounded_visit : (s : Statement) → s.visit.Grounded
  | .ret _ | .update (.globalObject _) _ _ | .call _ _ | .noop => Walk.grounded_read Track.adds_id
  | .save name value => Walk.grounded_read (Track.adds_declare name value)
  | .update (.saved name) _ _ => Walk.grounded_read (Track.adds_change name _ _)
  | .choice branches => grounded_visitBranches branches
  | .forEach source item body =>
      ((Walk.grounded_round source item).andThen (grounded_visitBody body)).andThen
        (Walk.grounded_read Track.adds_leave)
  | .setKey store _ _ | .deleteKey store _ | .pushAtKey store _ _ => Walk.grounded_write store _
termination_by structural s => s

theorem grounded_visitBody : (body : List Statement) → (visitBody body).Grounded
  | [] => Walk.grounded_read Track.adds_id
  | s :: rest => (grounded_visit s).andThen (grounded_visitBody rest)
termination_by structural body => body

theorem grounded_visitBranches : (branches : List (Guard × List Statement)) →
    (visitBranches branches).Grounded
  | [] => Walk.grounded_read Track.adds_id
  | (guard, body) :: rest =>
      (((guard.grounded_visit.andThen (Walk.grounded_read Track.adds_enter)).andThen
        (grounded_visitBody body)).andThen (Walk.grounded_read Track.adds_leave)).andThen
        (grounded_visitBranches rest)
termination_by structural branches => branches
end

end Statement

namespace Function

theorem values_initialFlow (f : Function) :
    f.initialFlow.taints.values = f.inputs.map fun _ => .empty := by
  have hfold : ∀ (inputs : List Input) (taints : Taints),
      (inputs.foldl (fun taints input => taints.add input.name .empty) taints).values =
        taints.values ++ inputs.map fun _ => .empty := by
    intro inputs
    induction inputs with
    | nil => exact fun _ => (List.append_nil _).symm
    | cons input rest ih =>
        intro taints
        rw [List.foldl_cons, ih, Scope.values_add, List.append_assoc]
        rfl
  exact hfold f.inputs Scope.empty

theorem not_has_initialFlow (f : Function) (store : String) (place : Place) :
    ¬ f.initialFlow.track.Has store place := by
  cases place with
  | path => exact NameSet.not_mem_empty store
  | slot slot =>
      rintro ⟨taint, htaint, hstore⟩
      have hmem := List.mem_of_getElem? htaint
      rw [Flow.track, values_initialFlow, List.mem_map] at hmem
      obtain ⟨_, -, rfl⟩ := hmem
      exact NameSet.not_mem_empty store hstore

theorem eq_visit_of_summarize {f : Function} {actions : List Action}
    (h : f.summarize = .ok actions) :
    actions = (Statement.visitBody f.body f.initialFlow.track).1 := by
  obtain ⟨final, hfinal, hpure⟩ := bind_eq_ok.mp h
  have hwalk := Statement.follows_visitBody f.body _ _ final rfl hfinal f.initialFlow rfl
  obtain rfl := Except.ok.inj (hfinal.symm.trans hwalk)
  obtain rfl := pure_eq_ok.mp hpure
  rfl

/-- What a change of a store is said to depend on was read before it. -/
theorem get_mem_take_of_recorded {f : Function} {actions : List Action}
    (h : f.summarize = .ok actions) {k : Nat} {store : String}
    (hstore : Action.Recorded actions k store) : .get store ∈ actions.take k := by
  obtain rfl := eq_visit_of_summarize h
  have hgrounded := Statement.grounded_visitBody f.body (fun _ => False) f.initialFlow.track
    fun store place hplace => f.not_has_initialFlow store place hplace
  exact (hgrounded.1 k store hstore).resolve_left id

end Function

end StoredProcedure
