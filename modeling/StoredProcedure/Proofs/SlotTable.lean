import StoredProcedure.Proofs.CodeScope

namespace StoredProcedure

inductive Operation where
  | add (name : String)
  | get (name : String)
  | enter
  | close

/-- `refused` answers that the outermost scope cannot be closed. -/
inductive Answer where
  | slot (result : Except Fault Nat)
  | entered
  | freed (count : Nat)
  | refused

/-- A way to represent the variables in scope. -/
structure Scoping (σ : Type) where
  start : σ
  next : σ → Nat
  add : σ → String → σ
  resolve : σ → String → Except Fault Nat
  enter : σ → σ
  close? : σ → Option (Nat × σ)

namespace Scoping

variable {σ τ : Type}

def perform (R : Scoping σ) (s : σ) : Operation → Answer × σ
  | .add name => (.slot (.ok (R.next s)), R.add s name)
  | .get name => (.slot (R.resolve s name), s)
  | .enter => (.entered, R.enter s)
  | .close =>
      match R.close? s with
      | some (count, after) => (.freed count, after)
      | none => (.refused, s)

def run (R : Scoping σ) (s : σ) : List Operation → List Answer × σ
  | [] => ([], s)
  | op :: rest =>
      let (answer, middle) := R.perform s op
      let (answers, after) := R.run middle rest
      (answer :: answers, after)

theorem run_append (R : Scoping σ) (s : σ) (ops more : List Operation) :
    R.run s (ops ++ more) =
      ((R.run s ops).1 ++ (R.run (R.run s ops).2 more).1, (R.run (R.run s ops).2 more).2) := by
  induction ops generalizing s with
  | nil => rfl
  | cons op rest ih => simp only [List.cons_append, run, ih]

/-- One representation answers like another on the states that satisfy an invariant. -/
structure Refines (C : Scoping σ) (A : Scoping τ) (names : σ → τ) (Inv : σ → Prop) : Prop where
  start : Inv C.start ∧ names C.start = A.start
  step : ∀ s op, Inv s → Inv (C.perform s op).2 ∧
    A.perform (names s) op = ((C.perform s op).1, names (C.perform s op).2)

theorem Refines.run {C : Scoping σ} {A : Scoping τ} {names : σ → τ} {Inv : σ → Prop}
    (h : C.Refines A names Inv) {s : σ} (hs : Inv s) (ops : List Operation) :
    Inv (C.run s ops).2 ∧ A.run (names s) ops = ((C.run s ops).1, names (C.run s ops).2) := by
  induction ops generalizing s with
  | nil => exact ⟨hs, rfl⟩
  | cons op rest ih =>
      obtain ⟨hinv, hop⟩ := h.step s op hs
      obtain ⟨hafter, hrest⟩ := ih hinv
      refine ⟨hafter, ?_⟩
      simp only [Scoping.run, hop, hrest]

def addAll (R : Scoping σ) (s : σ) (names : List String) : σ :=
  names.foldl R.add s

/-- Closing a scope undoes what was done since it was opened, if that was only to declare. -/
def Restores (R : Scoping σ) : Prop :=
  ∀ s names, R.close? (R.addAll (R.enter s) names) = some (names.length, s)

/-- `R.Above s count depth u`: from `s` on, `count` variables were declared, then `depth` scopes
were opened and are still open, and any variables may have been declared in them. -/
inductive Above (R : Scoping σ) (s : σ) : Nat → Nat → σ → Prop
  | base (names : List String) : Above R s names.length 0 (R.addAll s names)
  | nested {count depth : Nat} {u : σ} (h : Above R s count depth u) (names : List String) :
      Above R s count (depth + 1) (R.addAll (R.enter u) names)

theorem addAll_concat (R : Scoping σ) (s : σ) (names : List String) (name : String) :
    R.addAll s (names ++ [name]) = R.add (R.addAll s names) name := by
  rw [addAll, List.foldl_append]
  rfl

theorem Above.exists_addAll {R : Scoping σ} {s u : σ} {count : Nat} (h : R.Above s count 0 u) :
    ∃ names : List String, names.length = count ∧ R.addAll s names = u := by
  cases h with
  | base names => exact ⟨names, rfl, rfl⟩

end Scoping

/-- How many variables a sequence of operations declares directly in the scope in which it starts,
if it closes every scope that it opens and no other. Before it, `depth` more scopes were opened that
it has to close. -/
def Operation.declared? : Nat → List Operation → Option Nat
  | 0, [] => some 0
  | _ + 1, [] => none
  | 0, .add _ :: rest => (declared? 0 rest).map (· + 1)
  | depth + 1, .add _ :: rest => declared? (depth + 1) rest
  | depth, .get _ :: rest => declared? depth rest
  | depth, .enter :: rest => declared? (depth + 1) rest
  | 0, .close :: _ => none
  | depth + 1, .close :: rest => declared? depth rest

namespace Scoping

variable {σ : Type} {R : Scoping σ}

/-- A sequence that closes what it opens ends in the scope in which it started, and what it did
there directly is to declare variables. -/
theorem Above.run (hR : R.Restores) {s u : σ} {count depth declared : Nat}
    (h : R.Above s count depth u) {ops : List Operation}
    (hops : Operation.declared? depth ops = some declared) :
    R.Above s (count + declared) 0 (R.run u ops).2 := by
  -- What is closed on the way was opened on the way, so closing it restores what was before.
  induction ops generalizing count depth declared u with
  | nil =>
      cases depth with
      | zero =>
          obtain rfl := Option.some.inj hops
          exact h
      | succ depth => cases hops
  | cons op rest ih =>
      cases op with
      | add name =>
          cases h with
          | base names =>
              obtain ⟨more, hmore, rfl⟩ := Option.map_eq_some_iff.mp hops
              have hadd := Above.base (R := R) (s := s) (names ++ [name])
              rw [addAll_concat, List.length_append] at hadd
              have := ih hadd hmore
              rwa [List.length_singleton, Nat.add_assoc, Nat.add_comm 1] at this
          | nested h names =>
              have hadd := h.nested (names ++ [name])
              rw [addAll_concat] at hadd
              exact ih hadd hops
      | get name =>
          rw [Operation.declared?] at hops
          exact ih h hops
      | enter =>
          rw [Operation.declared?] at hops
          exact ih (h.nested []) hops
      | close =>
          cases h with
          | base names => cases hops
          | nested h names =>
              rw [Operation.declared?] at hops
              have := ih h hops
              rwa [Scoping.run, perform, hR]

theorem run_scope (hR : R.Restores) (s : σ) {ops : List Operation} {declared : Nat}
    (hops : Operation.declared? 0 ops = some declared) :
    R.run s (.enter :: ops ++ [.close]) =
      (.entered :: (R.run (R.enter s) ops).1 ++ [.freed declared], s) := by
  have hinside := (Above.base (R := R) (s := R.enter s) []).run hR hops
  obtain ⟨names, hlength, hafter⟩ := hinside.exists_addAll
  rw [List.length_nil, Nat.zero_add] at hlength
  have hclose : R.run (R.run (R.enter s) ops).2 [.close] = ([.freed declared], s) := by
    have hnames : R.close? (R.run (R.enter s) ops).2 = some (declared, s) := by
      rw [← hlength, ← hR s names, hafter]
      rfl
    rw [run, perform, hnames]
    rfl
  rw [List.cons_append, run]
  simp only [perform, run_append, hclose]
  rfl

end Scoping

theorem Scope.close?_eq_some {α : Type} {s after : Scope α} {count : Nat} :
    s.close? = some (count, after) ↔ s.outer ≠ [] ∧ s.declared = count ∧ s.leave = after := by
  rw [close?, ← List.isEmpty_eq_false_iff]
  cases s.outer.isEmpty with
  | true => simp
  | false => simp

theorem Scope.valueIn_eq_some_iff {α : Type} {name : String} {value : α}
    {vars : List (String × α)} :
    valueIn name vars = some value ↔
      ∃ later earlier, vars = later ++ (name, value) :: earlier ∧ name ∉ later.map Prod.fst := by
  induction vars with
  | nil => simp [valueIn]
  | cons var rest ih =>
      by_cases hname : var.1 = name
      · rw [valueIn, if_pos hname, Option.some.injEq]
        constructor
        · rintro rfl
          exact ⟨[], rest, by rw [← hname]; rfl, List.not_mem_nil⟩
        · rintro ⟨_ | ⟨first, later⟩, earlier, hvars, hlater⟩
          · rw [List.nil_append] at hvars
            exact congrArg Prod.snd (List.cons.inj hvars).1
          · rw [List.cons_append] at hvars
            rw [List.map_cons, ← (List.cons.inj hvars).1, hname] at hlater
            exact absurd List.mem_cons_self hlater
      · rw [valueIn, if_neg hname, ih]
        constructor
        · rintro ⟨later, earlier, rfl, hlater⟩
          refine ⟨var :: later, earlier, rfl, ?_⟩
          rw [List.map_cons, List.mem_cons, not_or]
          exact ⟨Ne.symm hname, hlater⟩
        · rintro ⟨_ | ⟨first, later⟩, earlier, hvars, hlater⟩
          · rw [List.nil_append] at hvars
            exact absurd (congrArg Prod.fst (List.cons.inj hvars).1) hname
          · rw [List.cons_append] at hvars
            rw [List.map_cons, List.mem_cons, not_or] at hlater
            exact ⟨later, earlier, (List.cons.inj hvars).2, hlater.2⟩

/-- The plain stack of names. -/
def Slots.scoping : Scoping Slots where
  start := Scope.empty
  next := Scope.nextSlot
  add := fun slots name => slots.add name ()
  resolve := Slots.resolve
  enter := Scope.enter
  close? := Scope.close?

/-- Scopes that keep each variable with its slot, and the slot that the next variable will have. -/
structure SlotTable where
  next : Nat
  scopes : Scope Nat

namespace SlotTable

def empty : SlotTable := ⟨0, Scope.empty⟩

def add (t : SlotTable) (name : String) : SlotTable :=
  ⟨t.next + 1, t.scopes.add name t.next⟩

def resolve (t : SlotTable) (name : String) : Except Fault Nat :=
  match t.scopes.value? name with
  | some slot => .ok slot
  | none => .error (.unknownVariable name)

def enter (t : SlotTable) : SlotTable :=
  ⟨t.next, t.scopes.enter⟩

/-- Closes the innermost scope and frees as many slots as it declared. The outermost scope cannot be
closed. -/
def close? (t : SlotTable) : Option (Nat × SlotTable) :=
  match t.scopes.close? with
  | some (count, scopes) => some (count, ⟨t.next - count, scopes⟩)
  | none => none

def scoping : Scoping SlotTable where
  start := empty
  next := next
  add := add
  resolve := resolve
  enter := enter
  close? := close?

def slots (t : SlotTable) : Slots :=
  t.scopes.shape

/-- The live variables with their slots, the outermost scope first and each scope in the order of
declaration. -/
def bindings (t : SlotTable) : List (String × Nat) :=
  t.scopes.live.reverse

/-- The slots in use are those before the next one, in the order of declaration. -/
def Dense (t : SlotTable) : Prop :=
  t.bindings.map Prod.snd = List.range t.next

theorem dense_iff {t : SlotTable} : t.Dense ↔ t.scopes.values = List.range t.next := by
  rw [Dense, bindings, List.map_reverse, Scope.values]

theorem Dense.next_eq {t : SlotTable} (h : t.Dense) : t.next = t.slots.nextSlot := by
  have hlength := congrArg List.length (dense_iff.mp h)
  rw [Scope.length_values, List.length_range] at hlength
  rw [slots, Scope.nextSlot_shape, hlength]

theorem Dense.value?_eq {t : SlotTable} (h : t.Dense) (name : String) :
    t.scopes.value? name = t.slots.slot? name := by
  rw [slots, Scope.slot?_shape]
  cases hslot : t.scopes.slot? name with
  | none =>
      cases hvalue : t.scopes.value? name with
      | none => rfl
      | some value =>
          obtain ⟨slot, hsome⟩ := Scope.exists_slot? hvalue
          rw [hslot] at hsome
          cases hsome
  | some slot =>
      have hlt := Scope.slot?_lt hslot
      rw [← Scope.getElem?_values hslot, dense_iff.mp h, List.getElem?_range]
      rwa [h.next_eq, slots, Scope.nextSlot_shape]

theorem Dense.resolve_eq {t : SlotTable} (h : t.Dense) (name : String) :
    t.resolve name = t.slots.resolve name := by
  rw [resolve, h.value?_eq]
  rfl

theorem dense_empty : empty.Dense := rfl

theorem Dense.add {t : SlotTable} (h : t.Dense) (name : String) : (t.add name).Dense := by
  rw [dense_iff, SlotTable.add, Scope.values_add, dense_iff.mp h, List.range_succ]

theorem Dense.enter {t : SlotTable} (h : t.Dense) : t.enter.Dense := h

theorem close?_eq_some {t after : SlotTable} {count : Nat} :
    t.close? = some (count, after) ↔
      t.scopes.close? = some (count, after.scopes) ∧ after.next = t.next - count := by
  rw [close?]
  rcases t.scopes.close? with _ | ⟨freed, scopes⟩
  · simp
  · simp only [Option.some.injEq, Prod.mk.injEq]
    constructor
    · rintro ⟨rfl, rfl⟩
      exact ⟨⟨rfl, rfl⟩, rfl⟩
    · rintro ⟨⟨rfl, rfl⟩, hnext⟩
      exact ⟨rfl, by rw [← hnext]⟩

theorem Dense.close {t after : SlotTable} {count : Nat} (h : t.Dense)
    (hclose : t.close? = some (count, after)) : after.Dense := by
  obtain ⟨hscopes, hnext⟩ := close?_eq_some.mp hclose
  obtain ⟨-, rfl, hleave⟩ := Scope.close?_eq_some.mp hscopes
  rw [dense_iff, ← hleave, Scope.values_leave, dense_iff.mp h, List.length_range, List.take_range,
    hnext, Nat.min_eq_left (Nat.sub_le _ _)]

theorem slots_add (t : SlotTable) (name : String) : (t.add name).slots = t.slots.add name () := rfl

theorem close?_slots (t : SlotTable) :
    t.slots.close? = t.close?.map fun closed => (closed.1, closed.2.slots) := by
  have houter : t.slots.outer.isEmpty = t.scopes.outer.isEmpty := List.isEmpty_map
  rw [close?, Scope.close?, Scope.close?, houter]
  cases t.scopes.outer.isEmpty with
  | true => rfl
  | false =>
      simp only [Bool.false_eq_true, if_false, Option.map_some, slots, Scope.declared_shape,
        Scope.shape_leave]

theorem refines : scoping.Refines Slots.scoping slots Dense where
  start := ⟨dense_empty, rfl⟩
  step := by
    intro t op h
    cases op with
    | add name =>
        refine ⟨h.add name, ?_⟩
        simp only [Scoping.perform, scoping, Slots.scoping, slots_add, h.next_eq]
    | get name =>
        refine ⟨h, ?_⟩
        simp only [Scoping.perform, scoping, Slots.scoping, h.resolve_eq]
    | enter => exact ⟨h.enter, rfl⟩
    | close =>
        simp only [Scoping.perform, scoping, Slots.scoping, close?_slots]
        cases hclose : t.close? with
        | none => exact ⟨h, rfl⟩
        | some closed => exact ⟨h.close hclose, rfl⟩

theorem addAll_eq (t : SlotTable) (names : List String) :
    ∃ vars : List (String × Nat), vars.length = names.length ∧
      scoping.addAll t names =
        ⟨t.next + names.length, ⟨vars ++ t.scopes.inner, t.scopes.outer⟩⟩ := by
  induction names generalizing t with
  | nil => exact ⟨[], rfl, rfl⟩
  | cons name rest ih =>
      obtain ⟨vars, hlength, hrest⟩ := ih (t.add name)
      refine ⟨vars ++ [(name, t.next)], ?_, ?_⟩
      · rw [List.length_append, hlength, List.length_singleton, List.length_cons]
      · rw [List.append_assoc, List.length_cons, Nat.add_comm rest.length, ← Nat.add_assoc]
        exact hrest

theorem close?_addAll_enter (t : SlotTable) (names : List String) :
    (scoping.addAll t.enter names).close? = some (names.length, t) := by
  obtain ⟨vars, hlength, hnames⟩ := addAll_eq t.enter names
  rw [hnames, close?_eq_some, Scope.close?_eq_some]
  refine ⟨⟨List.cons_ne_nil _ _, ?_, rfl⟩, ?_⟩
  · rw [Scope.declared, ← hlength, List.length_append]
    rfl
  · exact (Nat.add_sub_cancel _ _).symm

theorem restores : scoping.Restores := close?_addAll_enter

theorem resolve_eq_ok_iff {t : SlotTable} {name : String} {slot : Nat} :
    t.resolve name = .ok slot ↔
      ∃ before after, t.bindings = before ++ (name, slot) :: after ∧
        name ∉ after.map Prod.fst := by
  have hvalue : t.resolve name = .ok slot ↔ t.scopes.value? name = some slot := by
    rw [resolve]
    cases t.scopes.value? name with
    | none => simp
    | some other => simp
  rw [hvalue, Scope.value?, Scope.valueIn_eq_some_iff]
  constructor
  · rintro ⟨later, earlier, hlive, hlater⟩
    refine ⟨earlier.reverse, later.reverse, ?_, ?_⟩
    · rw [bindings, hlive]
      simp
    · simpa using hlater
  · rintro ⟨before, after, hbindings, hafter⟩
    refine ⟨after.reverse, before.reverse, ?_, ?_⟩
    · rw [← List.reverse_reverse t.scopes.live]
      change t.bindings.reverse = _
      rw [hbindings]
      simp
    · simpa using hafter

theorem resolve_eq_error_iff {t : SlotTable} {name : String} {fault : Fault} :
    t.resolve name = .error fault ↔
      fault = .unknownVariable name ∧ name ∉ t.bindings.map Prod.fst := by
  have hnames : name ∈ t.bindings.map Prod.fst ↔ ∃ slot, t.scopes.value? name = some slot := by
    rw [Scope.exists_value?_iff, bindings, List.map_reverse, List.mem_reverse, Scope.names]
  rw [hnames, resolve]
  cases t.scopes.value? name with
  | none => simp [eq_comm]
  | some slot => simp

theorem bindings_add (t : SlotTable) (name : String) :
    (t.add name).bindings = t.bindings ++ [(name, t.next)] := by
  rw [bindings, add, Scope.live_add, List.reverse_cons, bindings]

theorem perform_close_eq_refused_iff {t : SlotTable} :
    scoping.perform t .close = (.refused, t) ↔ t.scopes.outer = [] := by
  simp only [Scoping.perform, scoping, close?, Scope.close?, ← List.isEmpty_iff]
  cases t.scopes.outer.isEmpty with
  | true => simp
  | false => simp

/-- Along every history of operations a table of slots answers like the plain stack of names that it
holds. Its slots are then `0, 1, 2, …` up to the next one. A new variable gets the next slot and is
put behind all others; a name stands for its last live variable, and is refused exactly if there is
none; only the outermost scope cannot be closed. What is done between the opening of a scope and its
closing is undone by the closing, which frees as many slots as were given in that scope itself. -/
theorem refines_stack_of_names (history : List Operation) :
    let t := (scoping.run empty history).2
    Slots.scoping.run Scope.empty history = ((scoping.run empty history).1, t.slots) ∧
      t.bindings.map Prod.snd = List.range t.next ∧ t.next = t.slots.nextSlot ∧
      (∀ name, scoping.perform t (.add name) = (.slot (.ok t.next), t.add name) ∧
        (t.add name).bindings = t.bindings ++ [(name, t.next)]) ∧
      (∀ name, ∃ result, scoping.perform t (.get name) = (.slot result, t) ∧
        (∀ slot, result = .ok slot ↔ ∃ before after,
          t.bindings = before ++ (name, slot) :: after ∧ name ∉ after.map Prod.fst) ∧
        ∀ fault, result = .error fault ↔
          fault = .unknownVariable name ∧ name ∉ t.bindings.map Prod.fst) ∧
      (scoping.perform t .close = (.refused, t) ↔ t.scopes.outer = []) ∧
      ∀ ops declared, Operation.declared? 0 ops = some declared →
        ∃ answers, scoping.run t (.enter :: ops ++ [.close]) =
          (.entered :: answers ++ [.freed declared], t) := by
  obtain ⟨hdense, hrun⟩ := refines.run refines.start.1 history
  refine ⟨hrun, hdense, hdense.next_eq, ?_, ?_, perform_close_eq_refused_iff, ?_⟩
  · intro name
    exact ⟨rfl, bindings_add _ name⟩
  · intro name
    exact ⟨_, rfl, fun _ => resolve_eq_ok_iff, fun _ => resolve_eq_error_iff⟩
  · intro ops declared hops
    exact ⟨_, Scoping.run_scope restores _ hops⟩

/-- A name is declared again in an inner scope, and a further scope comes and goes. -/
theorem refines_stack_of_names_shadowed :
    let t := (scoping.run empty [.add "x", .enter, .add "x"]).2
    let ops : List Operation := [.add "y", .enter, .add "x", .close, .get "x"]
    Operation.declared? 0 ops = some 1 ∧
      ∃ answers, scoping.run t (.enter :: ops ++ [.close]) =
        (.entered :: answers ++ [.freed 1], t) :=
  ⟨rfl, (refines_stack_of_names [.add "x", .enter, .add "x"]).2.2.2.2.2.2 _ 1 rfl⟩

end SlotTable

end StoredProcedure
