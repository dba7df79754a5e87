import Mathlib.Logic.Function.Basic
import StoredProcedure.Proofs.Dependence
import StoredProcedure.Proofs.Emission

/-!
Analyzing with a ledger that is changed in place: the table of slots, the stores noted for each slot,
those that reached each open group of expressions, those that decided that execution comes here, and
the actions so far. Groups and scopes are opened and closed on the way, and a fault may be met inside
any number of them.
-/

namespace StoredProcedure

structure Ledger where
  table : SlotTable
  /-- The stores that reached each open group of expressions, the innermost group first. -/
  groups : List NameSet
  taints : Nat → Option NameSet
  path : NameSet
  actions : List Action

namespace Ledger

def empty : Ledger := ⟨SlotTable.empty, [.empty], fun _ => none, .empty, []⟩

/-- What is noted for a slot. Nothing noted means no stores. -/
def taintAt (l : Ledger) (slot : Nat) : NameSet :=
  (l.taints slot).getD .empty

def note (l : Ledger) (slot : Nat) (taint : NameSet) : Ledger :=
  { l with taints := Function.update l.taints slot (some taint) }

def add (l : Ledger) (name : String) (taint : NameSet) : Ledger :=
  Ledger.note { l with table := l.table.add name } l.table.next taint

/-- A scope was closed, and what is noted for the slots that it frees is dropped. -/
def closed (l : Ledger) (table : SlotTable) (freed : Nat) : Ledger :=
  { l with
    table := table
    taints := fun slot =>
      if table.next ≤ slot ∧ slot < table.next + freed then none else l.taints slot }

def close? (l : Ledger) : Option Ledger :=
  l.table.close?.map fun (freed, table) => l.closed table freed

def find (name : String) : Stateful Ledger Nat := do
  ofExcept ((← get).table.resolve name)

def recorded (l : Ledger) (action : Action) : Ledger :=
  { l with actions := l.actions ++ [action] }

def reached (l : Ledger) (taint : NameSet) : Ledger :=
  { l with groups := l.groups.modifyHead (· ∪ taint) }

/-- What is noted for a slot. If nothing is, that is noted from now on. -/
def lookUp (slot : Nat) : Stateful Ledger NameSet := do
  let l ← get
  set (l.note slot (l.taintAt slot))
  return l.taintAt slot

def openGroup (l : Ledger) : Ledger :=
  { l with groups := .empty :: l.groups }

def closeGroup : Stateful Ledger NameSet := do
  let l ← get
  set { l with groups := l.groups.tail }
  return l.groups.headD .empty

/-- Runs a computation in a group of its own, and gives what reached the group. -/
def inGroup (x : Stateful Ledger Unit) : Stateful Ledger NameSet := do
  return (← Stateful.between openGroup closeGroup x).2

def readStore (store : String) (keys : Stateful Ledger Unit) : Stateful Ledger Unit := do
  let taint ← inGroup keys
  modify fun l => (l.recorded (.get store)).reached (taint.insert store)

def writeStore (store : String) (inputs : Stateful Ledger Unit) : Stateful Ledger Unit := do
  let taint ← inGroup inputs
  modify fun l => l.recorded (.mutate store (taint ∪ l.path))

/-- The stores that reach a condition decide the rest of the way. -/
def decided (condition : Stateful Ledger Unit) : Stateful Ledger NameSet := do
  let taint ← inGroup condition
  modify fun l => { l with path := l.path ∪ taint }
  return taint

def enter (l : Ledger) : Ledger :=
  { l with table := l.table.enter }

/-- Runs a computation in a scope of its own. -/
def within (x : Stateful Ledger Unit) : Stateful Ledger Unit := do
  let closing := Stateful.step fun l : Ledger => l.close?.map fun after => ((), after)
  return (← Stateful.between enter closing x).1

end Ledger

namespace Expr

mutual
def inspect : Expr → Stateful Ledger Unit
  | .bool _ | .int _ | .double _ | .string _ | .nothing => return ()
  | .object fields => inspectFields fields
  | .comparison _ left right | .arithmetic _ left right | .logic _ left right
  | .fieldExists left right => do
      left.inspect
      right.inspect
  | .negation value | .typeOf value | .hasType value _ | .keys value => value.inspect
  | .selection root level => do
      root.inspect
      inspectList level
  | .array values => inspectList values
  | .call _ args => inspectList args
  | .role _ state => inspectOption state
  | .saved name => do
      let slot ← Ledger.find name
      let taint ← Ledger.lookUp slot
      modify fun l => l.reached taint
  | .globalObject name => throw (.globalNotLowered name)
  | .wholeObject store | .keysOfObject store => Ledger.readStore store (return ())
  | .keyOfObject store key => Ledger.readStore store (inspectList key)
  | .keyExists store key => Ledger.readStore store key.inspect
termination_by structural e => e

def inspectList : List Expr → Stateful Ledger Unit
  | [] => return ()
  | e :: rest => do
      e.inspect
      inspectList rest
termination_by structural es => es

def inspectFields : List (Expr × Expr) → Stateful Ledger Unit
  | [] => return ()
  | (key, value) :: rest => do
      key.inspect
      value.inspect
      inspectFields rest
termination_by structural fields => fields

def inspectOption : Option Expr → Stateful Ledger Unit
  | none => return ()
  | some e => e.inspect
termination_by structural o => o
end

end Expr

/-- The stores that a variable depends on after an edit at `level`. -/
def Edit.taintAfter (level : List Expr) (edit : Edit) (taint old : NameSet) : NameSet :=
  if edit.isWhole level then taint else old ∪ taint

namespace Statement

def inspectEdit (name : String) (level : List Expr) (edit : Edit) : Stateful Ledger NameSet := do
  if let .deleteField := edit then ofExcept (Lowering.requireField name level)
  Ledger.inGroup (Expr.inspectList (level ++ edit.inputs))

def inspectUpdate (name : String) (level : List Expr) (edit : Edit) : Stateful Ledger Unit := do
  let slot ← Ledger.find name
  let taint ← inspectEdit name level edit
  modify fun l => l.note slot (edit.taintAfter level taint (l.taintAt slot))

def inspectGuard : Guard → Stateful Ledger Unit
  | .when condition => do
      let _ ← Ledger.decided condition.inspect
  | .otherwise | .lastly => return ()

mutual
def inspect : Statement → Stateful Ledger Unit
  | .ret none => return ()
  | .ret (some value) => do
      let _ ← Ledger.inGroup value.inspect
  | .save name value => do
      let taint ← Ledger.inGroup value.inspect
      modify fun l => l.add name taint
  | .update (.globalObject name) _ _ => throw (.updateNotLowered name)
  | .update (.saved name) level edit => inspectUpdate name level edit
  | .choice branches => do
      let _ ← ofExcept (Choice.shape branches)
      inspectBranches branches
  | .forEach source item body => do
      let taint ← Ledger.decided source.inspect
      Ledger.within do
        modify fun l => l.add item taint
        inspectBody body
  | .call _ args => do
      let _ ← Ledger.inGroup (Expr.inspectList args)
  | .noop => return ()
  | .setKey store key value => do
      ofExcept (Lowering.requireKey store key)
      Ledger.writeStore store (Expr.inspectList (key ++ [value]))
  | .deleteKey store key => do
      ofExcept (Lowering.requireKey store key)
      Ledger.writeStore store (Expr.inspectList key)
  | .pushAtKey store key values => do
      ofExcept (Lowering.requireKey store key)
      Ledger.writeStore store (Expr.inspectList (key ++ values))
termination_by structural s => s

def inspectBody : List Statement → Stateful Ledger Unit
  | [] => return ()
  | s :: rest => do
      s.inspect
      inspectBody rest
termination_by structural body => body

def inspectBranches : List (Guard × List Statement) → Stateful Ledger Unit
  | [] => return ()
  | (guard, body) :: rest => do
      inspectGuard guard
      Ledger.within (inspectBody body)
      inspectBranches rest
termination_by structural branches => branches
end

end Statement

namespace Function

/-- The ledger at the start of a function: its inputs are declared, without anything noted for
them. -/
def ledger (f : Function) : Ledger :=
  { Ledger.empty with table := SlotTable.scoping.addAll SlotTable.empty (f.inputs.map Input.name) }

def inspect (f : Function) : Option (Except Fault (List Action)) :=
  ((Statement.inspectBody f.body).run f.ledger).map fun r => r.1.map fun _ => r.2.actions

end Function

theorem NameSet.empty_union (s : NameSet) : .empty ∪ s = s :=
  ext_mem fun x => by simp

theorem NameSet.union_assoc (s t u : NameSet) : s ∪ t ∪ u = s ∪ (t ∪ u) :=
  ext_mem fun x => by simp [or_assoc]

theorem Reads.append_assoc (r s u : Reads) : r ++ s ++ u = r ++ (s ++ u) :=
  congrArg₂ Reads.mk (List.append_assoc _ _ _) (NameSet.union_assoc _ _ _)

theorem SlotTable.next_addAll (t : SlotTable) (names : List String) :
    (scoping.addAll t names).next = t.next + names.length := by
  obtain ⟨vars, -, hnames⟩ := addAll_eq t names
  rw [hnames]

theorem SlotTable.leave_slots_addAll_enter (t : SlotTable) (names : List String) :
    (scoping.addAll t.enter names).slots.leave = t.slots := by
  obtain ⟨vars, -, hnames⟩ := addAll_eq t.enter names
  rw [hnames]
  rfl

theorem SlotTable.Dense.resolve_lt {t : SlotTable} {name : String} {slot : Nat} (h : t.Dense)
    (hslot : t.resolve name = .ok slot) : slot < t.next := by
  rw [h.next_eq]
  exact Slots.resolve_lt (h.resolve_eq name ▸ hslot)

namespace Ledger

/-- Nothing is noted for a slot that is not in use. -/
def Bounded (l : Ledger) : Prop :=
  ∀ slot, l.table.next ≤ slot → l.taints slot = none

/-- The variables in scope, with what is noted for them. -/
structure Displays (l : Ledger) (taints : Taints) : Prop where
  dense : l.table.Dense
  shape : taints.shape = l.table.slots
  values : taints.values = (List.range l.table.next).map l.taintAt

structure Shows (l : Ledger) (flow : Flow) : Prop where
  taints : l.Displays flow.taints
  path : flow.path = l.path
  actions : flow.actions = l.actions

/-- What the evaluation of expressions does not change. -/
structure Steady (l after : Ledger) : Prop where
  table : after.table = l.table
  path : after.path = l.path
  taintAt : ∀ slot, after.taintAt slot = l.taintAt slot
  bounded : l.table.Dense → l.Bounded → after.Bounded

theorem Steady.refl (l : Ledger) : l.Steady l := ⟨rfl, rfl, fun _ => rfl, fun _ h => h⟩

theorem Steady.trans {l middle after : Ledger} (h : l.Steady middle) (h' : middle.Steady after) :
    l.Steady after where
  table := h'.table.trans h.table
  path := h'.path.trans h.path
  taintAt slot := (h'.taintAt slot).trans (h.taintAt slot)
  bounded hdense hbounded := h'.bounded (h.table ▸ hdense) (h.bounded hdense hbounded)

theorem Displays.of_steady {l after : Ledger} {taints : Taints} (h : l.Displays taints)
    (hsteady : l.Steady after) : after.Displays taints where
  dense := hsteady.table ▸ h.dense
  shape := hsteady.table ▸ h.shape
  values := by rw [hsteady.table, h.values, funext hsteady.taintAt]

theorem taintAt_note_self (l : Ledger) (slot : Nat) (taint : NameSet) :
    (l.note slot taint).taintAt slot = taint := by
  simp only [taintAt, note, Function.update_self, Option.getD_some]

theorem taintAt_note_of_ne (l : Ledger) {slot other : Nat} (h : other ≠ slot) (taint : NameSet) :
    (l.note slot taint).taintAt other = l.taintAt other := by
  simp only [taintAt, note, Function.update_of_ne h]

theorem Bounded.note {l : Ledger} (h : l.Bounded) {slot : Nat} (hslot : slot < l.table.next)
    (taint : NameSet) : (l.note slot taint).Bounded := by
  intro other hother
  change Function.update l.taints slot (some taint) other = none
  rw [Function.update_of_ne (Nat.ne_of_gt (Nat.lt_of_lt_of_le hslot hother))]
  exact h other hother

theorem Displays.resolve {l : Ledger} {taints : Taints} (h : l.Displays taints) (name : String) :
    taints.resolve name = (l.table.resolve name).map l.taintAt := by
  have hslot : l.table.scopes.value? name = taints.slot? name := by
    rw [h.dense.value?_eq, ← h.shape, Scope.slot?_shape]
  rw [SlotTable.resolve, hslot, Taints.resolve]
  cases hname : taints.slot? name with
  | none =>
      cases hvalue : taints.value? name with
      | none => rfl
      | some value =>
          obtain ⟨slot, hsome⟩ := Scope.exists_slot? hvalue
          rw [hname] at hsome
          cases hsome
  | some slot =>
      have hlt : slot < l.table.next := by
        rw [h.dense.next_eq, ← h.shape, Scope.nextSlot_shape]
        exact Scope.slot?_lt hname
      have hvalue : taints.value? name = some (l.taintAt slot) := by
        rw [← Scope.getElem?_values hname, h.values, List.getElem?_map, List.getElem?_range hlt]
        rfl
      rw [hvalue]
      rfl

/-- From one ledger to another only variables were declared, in the innermost scope. -/
structure Extends (l : Ledger) (names : List String) (after : Ledger) : Prop where
  table : after.table = SlotTable.scoping.addAll l.table names
  groups : after.groups = l.groups
  bounded : l.table.Dense → l.Bounded → after.Bounded

theorem Extends.trans {l middle after : Ledger} {names more : List String}
    (h : l.Extends names middle) (h' : middle.Extends more after) :
    l.Extends (names ++ more) after where
  table := by rw [h'.table, h.table, Scoping.addAll, Scoping.addAll, Scoping.addAll, List.foldl_append]
  groups := h'.groups.trans h.groups
  bounded hdense hbounded :=
    h'.bounded (h.table ▸ hdense.addAll names) (h.bounded hdense hbounded)

theorem Extends.refl (l : Ledger) : l.Extends [] l := ⟨rfl, rfl, fun _ h => h⟩

theorem Steady.extends {l after : Ledger} (h : l.Steady after) (hgroups : after.groups = l.groups) :
    l.Extends [] after :=
  ⟨h.table, hgroups, h.bounded⟩

theorem Displays.add_of {l after : Ledger} {taints : Taints} {name : String} {taint : NameSet}
    (h : l.Displays taints) (htable : after.table = l.table.add name)
    (hbelow : ∀ slot, slot < l.table.next → after.taintAt slot = l.taintAt slot)
    (hnext : after.taintAt l.table.next = taint) : after.Displays (taints.add name taint) where
  dense := htable ▸ h.dense.add name
  shape := htable ▸ congrArg (Scope.add · name ()) h.shape
  values := by
    have hvalues : (List.range l.table.next).map after.taintAt =
        (List.range l.table.next).map l.taintAt :=
      List.map_congr_left fun slot hslot => hbelow slot (List.mem_range.1 hslot)
    rw [htable]
    change _ = (List.range (l.table.next + 1)).map _
    rw [Scope.values_add, h.values, List.range_succ, List.map_append, hvalues, List.map_singleton,
      hnext]

theorem Shows.add {l : Ledger} {flow : Flow} (h : l.Shows flow) (name : String) (taint : NameSet) :
    (l.add name taint).Shows (flow.declare name taint) :=
  ⟨h.taints.add_of rfl (fun _ hslot => taintAt_note_of_ne _ (Nat.ne_of_lt hslot) taint)
    (taintAt_note_self _ _ _), h.path, h.actions⟩

theorem Extends.add (l : Ledger) (name : String) (taint : NameSet) :
    l.Extends [name] (l.add name taint) where
  table := rfl
  groups := rfl
  bounded _ hbounded :=
    Bounded.note (l := { l with table := l.table.add name })
      (fun slot hslot => hbounded slot (Nat.le_of_succ_le hslot)) (Nat.lt_succ_self _) taint

theorem Shows.enter {l : Ledger} {flow : Flow} (h : l.Shows flow) :
    l.enter.Shows flow.enter :=
  ⟨⟨h.taints.dense.enter, congrArg Scope.enter h.taints.shape, h.taints.values⟩, h.path, h.actions⟩

section Closing

variable {l after : Ledger} {names : List String}
  (h : l.enter.Extends names after)
include h

theorem Extends.close? : after.close? = some (after.closed l.table names.length) := by
  have hclose := SlotTable.close?_addAll_enter l.table names
  rw [Ledger.close?, h.table]
  exact congrArg (Option.map _) hclose

theorem Extends.next_eq : after.table.next = l.table.next + names.length := by
  rw [h.table, SlotTable.next_addAll]
  rfl

theorem Extends.closed : l.Extends [] (after.closed l.table names.length) where
  table := rfl
  groups := h.groups
  bounded hdense hbounded := by
    intro slot hslot
    change l.table.next ≤ slot at hslot
    change (if _ then none else after.taints slot) = none
    split
    · rfl
    · apply h.bounded hdense.enter hbounded
      rw [h.next_eq]
      omega

theorem Displays.leave {taints : Taints} (hdisplays : after.Displays taints)
    (hdense : l.table.Dense) :
    (after.closed l.table names.length).Displays taints.leave where
  dense := hdense
  shape := by
    rw [Scope.shape_leave, hdisplays.shape, h.table]
    exact SlotTable.leave_slots_addAll_enter l.table names
  values := by
    have hdeclared : taints.declared = names.length := by
      rw [← Scope.declared_shape, hdisplays.shape, h.table]
      exact SlotTable.declared_addAll_enter l.table names
    have hbelow : (List.range l.table.next).map (after.closed l.table names.length).taintAt =
        (List.range l.table.next).map after.taintAt := by
      apply List.map_congr_left
      intro slot hslot
      have hlt : ¬ (l.table.next ≤ slot ∧ slot < l.table.next + names.length) :=
        fun hin => Nat.not_le_of_lt (List.mem_range.1 hslot) hin.1
      simp only [taintAt, Ledger.closed, if_neg hlt]
    change _ = (List.range l.table.next).map _
    rw [hbelow, Scope.values_leave, hdeclared, hdisplays.values, h.next_eq, List.length_map,
      List.length_range, Nat.add_sub_cancel, ← List.map_take, List.take_range,
      Nat.min_eq_left (Nat.le_add_right _ _)]

theorem Shows.leave {flow : Flow} (hshows : after.Shows flow) (hdense : l.table.Dense) :
    (after.closed l.table names.length).Shows flow.leave :=
  ⟨Displays.leave h hshows.taints hdense, hshows.path, hshows.actions⟩

end Closing

theorem Displays.note {l : Ledger} {taints : Taints} (h : l.Displays taints) {name : String}
    {slot : Nat} (hslot : l.table.resolve name = .ok slot) (f : NameSet → NameSet) :
    (l.note slot (f (l.taintAt slot))).Displays (taints.modify name f) where
  dense := h.dense
  shape := (Scope.shape_modify taints name f).trans h.shape
  values := by
    have hvalue : taints.value? name = some (l.taintAt slot) := by
      rw [← Taints.resolve_eq_ok, h.resolve name, hslot]
      rfl
    have hname : taints.slot? name = some slot := by
      rw [← Scope.slot?_shape, h.shape, ← Slots.resolve_eq_ok, ← h.dense.resolve_eq name, hslot]
    change _ = (List.range l.table.next).map _
    rw [Scope.values_modify f hname hvalue, h.values]
    apply List.ext_getElem
    · rw [List.length_set, List.length_map, List.length_map]
    · intro other _ _
      rw [List.getElem_set, List.getElem_map, List.getElem_map, List.getElem_range]
      split
      · subst other
        rw [taintAt_note_self]
      · rw [taintAt_note_of_ne l (Ne.symm ‹_›)]

end Ledger

end StoredProcedure
