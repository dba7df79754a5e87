import StoredProcedure.Proofs.SlotTable
import StoredProcedure.Proofs.Tree

/-!
Compiling with a table of slots that is changed in place. A computation that comes upon a fault
leaves the table as it has become by then, so whoever opens a scope has to close it before the fault
is passed on. That this is done everywhere is proved here: a statement leaves the table as it was,
whether it is refused or not, except that a statement that saves a variable declares it; and what is
computed on the way is the code of the statement.
-/

namespace StoredProcedure

/-- A computation on a state of its own. A fault ends it in the state of that moment; `none` says
that it broke off. -/
abbrev Stateful (σ : Type) := ExceptT Fault (StateT σ Option)

namespace Stateful

variable {σ α β : Type}

def run (x : Stateful σ α) (s : σ) : Option (Except Fault α × σ) :=
  StateT.run (ExceptT.run x) s

/-- A step on the state, which may break off. -/
def step (f : σ → Option (α × σ)) : Stateful σ α :=
  ExceptT.lift (StateT.mk f)

/-- Runs a computation to its end. If that is a fault, it is not yet passed on. -/
def outcome (x : Stateful σ α) : Stateful σ (Except Fault α) :=
  ExceptT.lift (ExceptT.run x)

/-- Runs a computation between the opening of something and its closing. It is closed before a fault
of the computation is passed on. -/
def between (opening : σ → σ) (closing : Stateful σ β) (x : Stateful σ α) : Stateful σ (α × β) := do
  modify opening
  let result ← x.outcome
  let closed ← closing
  return (← ofExcept result, closed)

theorem run_ofExcept (r : Except Fault α) (s : σ) :
    (ofExcept r : Stateful σ α).run s = some (r, s) := by
  cases r <;> rfl

theorem run_bind_ok {x : Stateful σ α} {s after : σ} {a : α}
    (h : x.run s = some (.ok a, after)) (f : α → Stateful σ β) :
    (x >>= f).run s = (f a).run after := by
  change (ExceptT.run x).run s = _ at h
  rw [run, ExceptT.run_bind, StateT.run_bind, h]
  rfl

theorem run_bind_error {x : Stateful σ α} {s after : σ} {fault : Fault}
    (h : x.run s = some (.error fault, after)) (f : α → Stateful σ β) :
    (x >>= f).run s = some (.error fault, after) := by
  change (ExceptT.run x).run s = _ at h
  rw [run, ExceptT.run_bind, StateT.run_bind, h]
  rfl

theorem run_bind_pure {x : Stateful σ α} {s after : σ} {r : Except Fault α}
    (h : x.run s = some (r, after)) (f : α → β) :
    (x >>= fun a => pure (f a)).run s = some (r.map f, after) := by
  cases r with
  | error fault => exact run_bind_error h _
  | ok a => exact run_bind_ok h _

theorem run_step {f : σ → Option (α × σ)} {s after : σ} {a : α} (h : f s = some (a, after)) :
    (step f).run s = some (.ok a, after) := by
  rw [run, step, ExceptT.run_lift, StateT.run_map, StateT.run_mk, h]
  rfl

theorem run_outcome {x : Stateful σ α} {s after : σ} {r : Except Fault α}
    (h : x.run s = some (r, after)) : x.outcome.run s = some (.ok r, after) := by
  change (ExceptT.run x).run s = _ at h
  rw [run, outcome, ExceptT.run_lift, StateT.run_map, h]
  rfl

theorem run_between {opening : σ → σ} {closing : Stateful σ β} {x : Stateful σ α}
    {s middle after : σ} {r : Except Fault α} {b : β} (hx : x.run (opening s) = some (r, middle))
    (hclosing : closing.run middle = some (.ok b, after)) :
    (between opening closing x).run s = some (r.map fun a => (a, b), after) := by
  have hopening : (modify opening : Stateful σ Unit).run s = some (.ok (), opening s) := rfl
  rw [between, run_bind_ok hopening, run_bind_ok (run_outcome hx), run_bind_ok hclosing]
  exact run_bind_pure (run_ofExcept r after) _

end Stateful

namespace SlotTable

def declare (name : String) : Stateful SlotTable Nat := do
  let t ← get
  set (t.add name)
  return t.next

def find (name : String) : Stateful SlotTable Nat := do
  ofExcept ((← get).resolve name)

/-- Runs a computation in a scope of its own, and says how many variables the scope had. -/
def within {α : Type} (x : Stateful SlotTable α) : Stateful SlotTable (α × Nat) :=
  Stateful.between enter (Stateful.step close?) x

end SlotTable

namespace Expr

mutual
def emit : Expr → Stateful SlotTable Code
  | .bool value => return [.instantiate (.bool value)]
  | .int value => return [.instantiate (.int (WordInt.ofInt64 value))]
  | .double value => return [.instantiate (.double value)]
  | .string value => return [.instantiate (.string value)]
  | .nothing => return [.instantiate .null]
  | .object fields => do return .instantiate .emptyObject :: (← emitFields fields)
  | .comparison sign left right => do
      let left ← left.emit
      let right ← right.emit
      return left ++ right ++ sign.code
  | .arithmetic sign left right => do
      let left ← left.emit
      let right ← right.emit
      return left ++ right ++ [sign.instruction]
  | .logic sign left right => do
      let left ← left.emit
      let right ← right.emit
      return left ++ right ++ [sign.instruction]
  | .negation value => do return (← value.emit) ++ [.negate]
  | .typeOf value => do return (← value.emit) ++ [.typeOf]
  | .hasType value type => do return (← value.emit) ++ [.hasType type]
  | .saved name => do return [.copyFromHeap (← SlotTable.find name)]
  | .selection root level => do
      let root ← root.emit
      if level.isEmpty then return root
      else return root ++ (← emitList level) ++ [.getField level.length]
  | .fieldExists value field => do
      let value ← value.emit
      let field ← field.emit
      return value ++ field ++ [.fieldExists]
  | .keys source => do return (← source.emit) ++ [.getKeys]
  | .array values => do return .instantiate .emptyArray :: (← emitPushes values)
  | .call function args => do return (← emitList args) ++ [.invoke function args.length]
  | .role schema state =>
      match schema.roleName? with
      | none => throw (.roleMissing schema)
      | some name => do
          return .instantiate (.entry "_name" (.string name)) :: (← emitState state) ++ [.signRole]
  | .globalObject name => throw (.globalNotLowered name)
  | .wholeObject store => return Code.wholeObject store
  | .keyOfObject store [] => throw (.keyMissing store)
  | .keyOfObject store (first :: rest) => do
      let nested ← emitList rest
      let first ← first.emit
      return Code.keyOfObject store first rest.length nested
  | .keyExists store key => do return Code.keyExists store (← key.emit)
  | .keysOfObject store => return Code.keysOfObject store
termination_by structural e => e

def emitList : List Expr → Stateful SlotTable Code
  | [] => return []
  | e :: rest => do
      let code ← e.emit
      return code ++ (← emitList rest)
termination_by structural es => es

def emitPushes : List Expr → Stateful SlotTable Code
  | [] => return []
  | e :: rest => do
      let code ← e.emit
      return code ++ .arrayPush :: (← emitPushes rest)
termination_by structural es => es

def emitFields : List (Expr × Expr) → Stateful SlotTable Code
  | [] => return []
  | (key, value) :: rest => do
      let key ← key.emit
      let value ← value.emit
      return key ++ value ++ .setField 1 :: (← emitFields rest)
termination_by structural fields => fields

def emitState : Option Expr → Stateful SlotTable Code
  | none => return []
  | some state => do return Code.text "_state" :: (← state.emit) ++ [.setField 1]
termination_by structural state => state
end

def emitArray (values : List Expr) : Stateful SlotTable Code := do
  return .instantiate .emptyArray :: (← emitPushes values)

def emitAppends (slot : Nat) : List Expr → Stateful SlotTable Code
  | [] => return []
  | e :: rest => do
      let code ← e.emit
      return code ++ .stackToHeapArray slot :: (← emitAppends slot rest)

end Expr

def Edit.emit (name : String) (slot : Nat) (level : List Expr) : Edit → Stateful SlotTable Code
  | .push values =>
      if level.isEmpty then Expr.emitAppends slot values
      else do
        let path ← Expr.emitList level
        let values ← Expr.emitArray values
        return path ++ values ++ [.pushSavedField level.length slot]
  | .deleteField => do
      ofExcept (Lowering.requireField name level)
      return (← Expr.emitList level) ++ [.deleteSavedField level.length slot]
  | .set value =>
      if level.isEmpty then do
        return (← value.emit) ++ [.overwriteHeap slot]
      else do
        let path ← Expr.emitList level
        let value ← value.emit
        return path ++ value ++ [.setSavedField level.length slot]

def Guard.emit (body : Code) : Guard → Stateful SlotTable Code
  | .when condition => do
      return (← condition.emit) ++ [.negate, .skipIf (body.length + 1)]
  | .otherwise | .lastly => return []

namespace Statement

def emitScoped (body : Stateful SlotTable Code) : Stateful SlotTable Code := do
  let (code, freed) ← SlotTable.within body
  return code ++ if freed = 0 then [] else [.truncateHeap freed]

mutual
def emit : Statement → Stateful SlotTable Code
  | .ret (some value) => do return (← value.emit) ++ [.returnTop]
  | .ret none => return [.returnVoid]
  | .save name value => do
      let code ← value.emit
      let _ ← SlotTable.declare name
      return code ++ [.stackToHeap]
  | .update (.globalObject name) _ _ => throw (.updateNotLowered name)
  | .update (.saved name) level edit => do
      let slot ← SlotTable.find name
      edit.emit name slot level
  | .choice branches => do
      let _ ← ofExcept (Choice.shape branches)
      let (arms, last) ← emitBranches branches
      return arms ++ last
  | .forEach source item body => do
      let source ← source.emit
      let (body, freed) ← SlotTable.within do
        let _ ← SlotTable.declare item
        emitBody body
      return source ++ Code.loop body freed
  | .call function args => do
      return (← Expr.emitList args) ++ [.invoke function args.length, .popStack]
  | .noop => return [.noop]
  | .setKey store [] _ => throw (.keyMissing store)
  | .setKey store (first :: rest) value => do
      let nested ← Expr.emitList rest
      let value ← value.emit
      let first ← first.emit
      return Code.setKey store first rest.length nested value
  | .deleteKey store [] => throw (.keyMissing store)
  | .deleteKey store (first :: rest) => do
      let nested ← Expr.emitList rest
      let first ← first.emit
      return Code.deleteKey store first rest.length nested
  | .pushAtKey store [] _ => throw (.keyMissing store)
  | .pushAtKey store (first :: rest) values => do
      let nested ← Expr.emitList rest
      let values ← Expr.emitArray values
      let first ← first.emit
      return Code.pushAtKey store first rest.length nested values
termination_by structural s => s

def emitBody : List Statement → Stateful SlotTable Code
  | [] => return []
  | s :: rest => do
      let code ← s.emit
      return code ++ (← emitBody rest)
termination_by structural body => body

def emitBranches : List (Guard × List Statement) → Stateful SlotTable (Code × Code)
  | [] => return ([], [.noop])
  | (.lastly, body) :: _ => do
      return ([], ← emitScoped (emitBody body))
  | (guard, body) :: rest => do
      -- The body comes before its condition, which has to know how far to jump.
      let code ← emitScoped (emitBody body)
      let test ← guard.emit code
      let (arms, last) ← emitBranches rest
      return (test ++ code ++ .jumpForward arms.length :: arms, last)
termination_by structural branches => branches
end

end Statement

namespace Function

def emitPrologue : List Input → Stateful SlotTable Code
  | [] => return []
  | input :: rest => do
      let slot ← SlotTable.declare input.name
      return inputCheck input slot ++ (← emitPrologue rest)

def emission (f : Function) : Stateful SlotTable Code := do
  let checks ← emitPrologue f.inputs
  let code ← Statement.emitBody f.body
  return .assertHeapLength f.inputs.length :: checks ++ code

def emit (f : Function) : Option (Except Fault Code) :=
  (f.emission.run SlotTable.empty).map Prod.fst

end Function

/-- A computation that leaves every table as it is. What it gives, seen through `view`, is what `c`
gives in the scope that the table stands for. -/
def Leaves {α β : Type} (view : Slots → α → β) (x : Stateful SlotTable α)
    (c : Slots → Except Fault β) : Prop :=
  ∀ t, ∃ result, x.run t = some (result, t) ∧ (t.Dense → c t.slots = result.map (view t.slots))

abbrev Keeps {α : Type} (x : Stateful SlotTable α) (c : Slots → Except Fault α) : Prop :=
  Leaves (fun _ a => a) x c

namespace Leaves

variable {α β γ : Type} {view : Slots → β → γ} {x : Stateful SlotTable α}
  {c : Slots → Except Fault α}

theorem pure (b : β) : Leaves view (pure b) fun slots => .ok (view slots b) :=
  fun _ => ⟨.ok b, rfl, fun _ => rfl⟩

theorem throw (fault : Fault) : Leaves view (throw fault) fun _ => .error fault :=
  fun _ => ⟨.error fault, rfl, fun _ => rfl⟩

theorem ofExcept (r : Except Fault α) : Keeps (ofExcept r) fun _ => r := by
  intro t
  refine ⟨r, Stateful.run_ofExcept r t, fun _ => ?_⟩
  cases r <;> rfl

theorem find (name : String) : Keeps (SlotTable.find name) fun slots => slots.resolve name := by
  intro t
  refine ⟨t.resolve name, Stateful.run_ofExcept (t.resolve name) t, fun hdense => ?_⟩
  change t.slots.resolve name = _
  rw [← hdense.resolve_eq name]
  cases t.resolve name <;> rfl

theorem bind {f : α → Stateful SlotTable β} {d : α → Slots → Except Fault γ} (hx : Keeps x c)
    (hf : ∀ a, Leaves view (f a) (d a)) :
    Leaves view (x >>= f) fun slots => c slots >>= fun a => d a slots := by
  intro t
  obtain ⟨result, hrun, hresult⟩ := hx t
  cases result with
  | error fault =>
      refine ⟨.error fault, Stateful.run_bind_error hrun f, fun hdense => ?_⟩
      change c t.slots >>= _ = _
      rw [hresult hdense]
      rfl
  | ok a =>
      obtain ⟨final, hfinal, hd⟩ := hf a t
      rw [← Stateful.run_bind_ok hrun f] at hfinal
      refine ⟨final, hfinal, fun hdense => ?_⟩
      change c t.slots >>= _ = _
      rw [hresult hdense]
      exact hd hdense

theorem andReturn (hx : Keeps x c) (f : α → β) :
    Leaves view (x >>= fun a => Pure.pure (f a)) fun slots =>
      c slots >>= fun a => Pure.pure (view slots (f a)) :=
  hx.bind fun a => pure (f a)

theorem congr {x : Stateful SlotTable β} {c d : Slots → Except Fault γ} (hx : Leaves view x c)
    (h : ∀ slots, d slots = c slots) : Leaves view x d :=
  funext h ▸ hx

end Leaves

namespace Expr

mutual
theorem keeps_emit : (e : Expr) → Keeps e.emit fun slots => e.compile slots
  | .bool _ | .int _ | .double _ | .string _ | .nothing => .pure _
  | .wholeObject _ | .keysOfObject _ => .pure _
  | .globalObject _ => .throw _
  | .object fields => (keeps_emitFields fields).andReturn _
  | .comparison _ left right | .arithmetic _ left right | .logic _ left right
  | .fieldExists left right =>
      (keeps_emit left).bind fun _ => (keeps_emit right).andReturn _
  | .negation value | .typeOf value | .hasType value _ | .keys value | .keyExists _ value =>
      (keeps_emit value).andReturn _
  | .saved name => (Leaves.find name).andReturn _
  | .selection root level => by
      refine (keeps_emit root).bind fun code => ?_
      split
      · exact .pure _
      · exact (keeps_emitList level).andReturn _
  | .array values => (keeps_emitPushes values).andReturn _
  | .call _ args => (keeps_emitList args).andReturn _
  | .role schema state => by
      simp only [emit, compile]
      cases schema.roleName? with
      | none => exact .throw _
      | some name => exact (keeps_emitState state).andReturn _
  | .keyOfObject _ [] => .throw _
  | .keyOfObject _ (first :: rest) =>
      (keeps_emitList rest).bind fun _ => (keeps_emit first).andReturn _
termination_by structural e => e

theorem keeps_emitList : (es : List Expr) → Keeps (emitList es) fun slots => compileList slots es
  | [] => .pure _
  | e :: rest => (keeps_emit e).bind fun _ => (keeps_emitList rest).andReturn _
termination_by structural es => es

theorem keeps_emitPushes : (es : List Expr) →
    Keeps (emitPushes es) fun slots => compilePushes slots es
  | [] => .pure _
  | e :: rest => (keeps_emit e).bind fun _ => (keeps_emitPushes rest).andReturn _
termination_by structural es => es

theorem keeps_emitFields : (fields : List (Expr × Expr)) →
    Keeps (emitFields fields) fun slots => compileFields slots fields
  | [] => .pure _
  | (key, value) :: rest =>
      (keeps_emit key).bind fun _ => (keeps_emit value).bind fun _ =>
        (keeps_emitFields rest).andReturn _
termination_by structural fields => fields

theorem keeps_emitState : (state : Option Expr) →
    Keeps (emitState state) fun slots => compileState slots state
  | none => .pure _
  | some state => (keeps_emit state).andReturn _
termination_by structural state => state
end

theorem keeps_emitArray (values : List Expr) :
    Keeps (emitArray values) fun slots => compileArray slots values :=
  (keeps_emitPushes values).andReturn _

theorem keeps_emitAppends (slot : Nat) (es : List Expr) :
    Keeps (emitAppends slot es) fun slots => compileAppends slots slot es := by
  induction es with
  | nil => exact .pure _
  | cons e rest ih => exact (keeps_emit e).bind fun _ => ih.andReturn _

end Expr

theorem Edit.keeps_emit (name : String) (slot : Nat) (level : List Expr) (edit : Edit) :
    Keeps (edit.emit name slot level) fun slots => edit.compile slots name slot level := by
  have hlevel := Expr.keeps_emitList level
  cases edit with
  | push values =>
      simp only [emit, compile]
      split
      · exact Expr.keeps_emitAppends slot values
      · exact hlevel.bind fun _ => (Expr.keeps_emitArray values).andReturn _
  | deleteField => exact (Leaves.ofExcept _).bind fun _ => hlevel.andReturn _
  | set value =>
      simp only [emit, compile]
      split
      · exact (Expr.keeps_emit value).andReturn _
      · exact hlevel.bind fun _ => (Expr.keeps_emit value).andReturn _

theorem Guard.keeps_emit (body : Code) (guard : Guard) :
    Keeps (guard.emit body) fun slots => guard.compile slots body := by
  cases guard with
  | when condition => exact (Expr.keeps_emit condition).andReturn _
  | otherwise | lastly => exact .pure _

/-- A computation that only declares variables in the innermost scope, be it up to a fault, and
gives what `c` gives. -/
def Adds {α : Type} (x : Stateful SlotTable α) (c : Slots → Except Fault (α × Slots)) : Prop :=
  ∀ t, ∃ result names, x.run t = some (result, SlotTable.scoping.addAll t names) ∧
    (t.Dense → c t.slots = result.map fun a => (a, (SlotTable.scoping.addAll t names).slots))

theorem SlotTable.Dense.addAll {t : SlotTable} (h : t.Dense) (names : List String) :
    (scoping.addAll t names).Dense := by
  induction names generalizing t with
  | nil => exact h
  | cons name rest ih => exact ih (h.add name)

theorem SlotTable.declared_addAll_enter (t : SlotTable) (names : List String) :
    (scoping.addAll t.enter names).slots.declared = names.length := by
  obtain ⟨vars, hlength, hnames⟩ := addAll_eq t.enter names
  rw [hnames, slots, Scope.declared_shape, Scope.declared, ← hlength, List.length_append]
  rfl

namespace Adds

variable {α β γ : Type} {x : Stateful SlotTable α} {c : Slots → Except Fault (α × Slots)}

theorem pure (a : α) : Adds (pure a) fun slots => .ok (a, slots) :=
  fun _ => ⟨.ok a, [], rfl, fun _ => rfl⟩

theorem declare (name : String) :
    Adds (SlotTable.declare name) fun slots => .ok (slots.nextSlot, slots.add name ()) := by
  intro t
  refine ⟨.ok t.next, [name], rfl, fun hdense => ?_⟩
  rw [hdense.next_eq]
  rfl

/-- One after the other. If the second comes upon a fault, what the first declared is still there. -/
theorem bind {f : α → Stateful SlotTable β} {d : α → Slots → Except Fault (β × Slots)}
    (hx : Adds x c) (hf : ∀ a, Adds (f a) (d a)) :
    Adds (x >>= f) fun slots => c slots >>= fun r => d r.1 r.2 := by
  intro t
  obtain ⟨result, names, hrun, hresult⟩ := hx t
  cases result with
  | error fault =>
      refine ⟨.error fault, names, Stateful.run_bind_error hrun f, fun hdense => ?_⟩
      change c t.slots >>= _ = _
      rw [hresult hdense]
      rfl
  | ok a =>
      obtain ⟨final, more, hfinal, hd⟩ := hf a (SlotTable.scoping.addAll t names)
      have hnames : SlotTable.scoping.addAll (SlotTable.scoping.addAll t names) more =
          SlotTable.scoping.addAll t (names ++ more) := List.foldl_append.symm
      rw [← Stateful.run_bind_ok hrun f, hnames] at hfinal
      rw [hnames] at hd
      refine ⟨final, names ++ more, hfinal, fun hdense => ?_⟩
      change c t.slots >>= _ = _
      rw [hresult hdense]
      exact hd (hdense.addAll names)

theorem within (hx : Adds x c) {view : Slots → β → γ} (f : α × Nat → β) :
    Leaves view (SlotTable.within x >>= fun r => Pure.pure (f r)) fun slots =>
      c slots.enter >>= fun r => Pure.pure (view slots (f (r.1, r.2.declared))) := by
  intro t
  obtain ⟨result, names, hrun, hresult⟩ := hx t.enter
  have hwithin : (SlotTable.within x).run t = some (result.map fun a => (a, names.length), t) :=
    Stateful.run_between hrun (Stateful.run_step (SlotTable.close?_addAll_enter t names))
  refine ⟨(result.map fun a => (a, names.length)).map f, Stateful.run_bind_pure hwithin f,
    fun hdense => ?_⟩
  have hc : c t.slots.enter = _ := hresult hdense.enter
  change c t.slots.enter >>= _ = _
  rw [hc]
  cases result with
  | error fault => rfl
  | ok a =>
      have hdeclared := SlotTable.declared_addAll_enter t names
      change Except.ok (view _ (f (a, (SlotTable.scoping.addAll t.enter names).slots.declared))) = _
      rw [hdeclared]
      rfl

end Adds

abbrev Writes (x : Stateful SlotTable Code) (c : Slots → Except Fault (Code × Slots)) : Prop :=
  Leaves (fun slots code => (code, slots)) x c

theorem Leaves.writes {x : Stateful SlotTable Code} {c : Slots → Except Fault Code}
    (hx : Keeps x c) : Writes x fun slots => c slots >>= fun code => Pure.pure (code, slots) := by
  intro t
  obtain ⟨result, hrun, hresult⟩ := hx t
  refine ⟨result, hrun, fun hdense => ?_⟩
  change c t.slots >>= _ = _
  rw [hresult hdense]
  cases result <;> rfl

namespace Statement

/-- The table after a statement, given what came of it. -/
def tableAfter {α : Type} (s : Statement) (result : Except Fault α) (t : SlotTable) : SlotTable :=
  match s, result with
  | .save name _, .ok _ => t.add name
  | _, _ => t

theorem tableAfter_error {α : Type} (s : Statement) (fault : Fault) (t : SlotTable) :
    s.tableAfter (.error fault : Except Fault α) t = t := by
  cases s <;> rfl

theorem tableAfter_ok {α : Type} (s : Statement) (a : α) (t : SlotTable) :
    s.tableAfter (.ok a) t = SlotTable.scoping.addAll t s.declares := by
  cases s <;> rfl

theorem slots_tableAfter {α : Type} (s : Statement) (a : α) (t : SlotTable) :
    (s.tableAfter (.ok a) t).slots = s.scopeAfter t.slots := by
  cases s <;> rfl

theorem dense_tableAfter {α : Type} (s : Statement) (result : Except Fault α) {t : SlotTable}
    (h : t.Dense) : (s.tableAfter result t).Dense := by
  cases result with
  | error fault =>
      rw [tableAfter_error]
      exact h
  | ok a =>
      rw [tableAfter_ok]
      exact h.addAll s.declares

/-- Compiling a statement leaves a table as it was, up to what a statement that succeeds declares,
and gives the code of the statement. -/
def Balanced (s : Statement) : Prop :=
  ∀ t, ∃ result, s.emit.run t = some (result, s.tableAfter result t) ∧
    (t.Dense → s.compile t.slots = result.map fun code => (code, s.scopeAfter t.slots))

theorem Balanced.of_writes {s : Statement} (hs : s.isSave = false)
    (h : Writes s.emit fun slots => s.compile slots) : s.Balanced := by
  intro t
  obtain ⟨result, hrun, hresult⟩ := h t
  have htable : s.tableAfter result t = t := by
    cases s with
    | save name value => cases hs
    | _ => rfl
  have hscope : s.scopeAfter t.slots = t.slots := by
    cases s with
    | save name value => cases hs
    | _ => rfl
  refine ⟨result, ?_, ?_⟩
  · rw [htable, hrun]
  · rw [hscope]
    exact hresult

theorem Balanced.save (name : String) (value : Expr) : (save name value).Balanced := by
  intro t
  obtain ⟨result, hrun, hresult⟩ := Expr.keeps_emit value t
  cases result with
  | error fault =>
      refine ⟨.error fault, Stateful.run_bind_error hrun _, fun hdense => ?_⟩
      simp only [compile, hresult hdense]
      rfl
  | ok code =>
      refine ⟨.ok (code ++ [.stackToHeap]), Stateful.run_bind_ok hrun _, fun hdense => ?_⟩
      simp only [compile, hresult hdense]
      rfl

theorem Balanced.adds {s : Statement} (h : s.Balanced) : Adds s.emit fun slots => s.compile slots := by
  intro t
  obtain ⟨result, hrun, hresult⟩ := h t
  cases result with
  | error fault =>
      rw [tableAfter_error] at hrun
      exact ⟨.error fault, [], hrun, hresult⟩
  | ok code =>
      rw [← slots_tableAfter s code t, tableAfter_ok] at hresult
      rw [tableAfter_ok] at hrun
      exact ⟨.ok code, s.declares, hrun, hresult⟩

theorem keeps_emitScoped {body : Stateful SlotTable Code}
    {c : Slots → Except Fault (Code × Slots)} (h : Adds body c) :
    Keeps (emitScoped body) fun slots =>
      c slots.enter >>= fun r => pure (r.1 ++ r.2.truncation) :=
  h.within fun r => r.1 ++ if r.2 = 0 then [] else [.truncateHeap r.2]

mutual
theorem balanced : (s : Statement) → s.Balanced
  | .ret none => .of_writes rfl (.pure _)
  | .ret (some value) => .of_writes rfl (.andReturn (Expr.keeps_emit value) _)
  | .save name value => .save name value
  | .update (.globalObject _) _ _ => .of_writes rfl (.throw _)
  | .update (.saved name) level edit =>
      .of_writes rfl (.bind (.find name) fun slot => (edit.keeps_emit name slot level).writes)
  | .choice branches =>
      .of_writes rfl (.bind (.ofExcept _) fun _ =>
        .andReturn (keeps_emitBranches branches) fun codes => codes.1 ++ codes.2)
  | .forEach source item body => by
      have hbody := (Adds.declare item).bind fun _ => adds_emitBody body
      exact .of_writes rfl (.bind (Expr.keeps_emit source) fun code =>
        hbody.within fun r => code ++ Code.loop r.1 r.2)
  | .call _ args => .of_writes rfl (.andReturn (Expr.keeps_emitList args) _)
  | .noop => .of_writes rfl (.pure _)
  | .setKey _ [] _ | .deleteKey _ [] | .pushAtKey _ [] _ => .of_writes rfl (.throw _)
  | .setKey _ (first :: rest) value =>
      .of_writes rfl (.bind (Expr.keeps_emitList rest) fun _ => .bind (Expr.keeps_emit value)
        fun _ => .andReturn (Expr.keeps_emit first) _)
  | .deleteKey _ (first :: rest) =>
      .of_writes rfl (.bind (Expr.keeps_emitList rest) fun _ =>
        .andReturn (Expr.keeps_emit first) _)
  | .pushAtKey _ (first :: rest) values =>
      .of_writes rfl (.bind (Expr.keeps_emitList rest) fun _ =>
        .bind (Expr.keeps_emitArray values) fun _ => .andReturn (Expr.keeps_emit first) _)
termination_by structural s => s

theorem adds_emitBody : (body : List Statement) →
    Adds (emitBody body) fun slots => compileBody slots body
  | [] => .pure _
  | s :: rest => (balanced s).adds.bind fun _ => (adds_emitBody rest).bind fun _ => .pure _
termination_by structural body => body

theorem keeps_emitBranches : (branches : List (Guard × List Statement)) →
    Keeps (emitBranches branches) fun slots => compileBranches slots branches
  | [] => .pure _
  | (.lastly, body) :: _ => by
      refine (keeps_emitScoped (adds_emitBody body)).andReturn _ |>.congr fun slots => ?_
      simp only [compileBranches, bind_assoc, pure_bind]
  | (.when condition, body) :: rest => by
      refine (keeps_emitScoped (adds_emitBody body)).bind (fun code =>
        (Guard.keeps_emit code (.when condition)).bind fun test =>
          (keeps_emitBranches rest).andReturn _) |>.congr fun slots => ?_
      simp only [compileBranches, bind_assoc, pure_bind]
  | (.otherwise, body) :: rest => by
      refine (keeps_emitScoped (adds_emitBody body)).bind (fun code =>
        (Guard.keeps_emit code .otherwise).bind fun test =>
          (keeps_emitBranches rest).andReturn _) |>.congr fun slots => ?_
      simp only [compileBranches, bind_assoc, pure_bind]
termination_by structural branches => branches
end

end Statement

namespace Function

theorem adds_emitPrologue (inputs : List Input) :
    Adds (emitPrologue inputs) fun slots => .ok (prologue slots inputs) := by
  induction inputs with
  | nil => exact .pure _
  | cons input rest ih =>
      exact (Adds.declare input.name).bind fun slot => ih.bind fun code =>
        .pure (inputCheck input slot ++ code)

theorem adds_emission (f : Function) : Adds f.emission fun slots => do
    let (code, inner) ← Statement.compileBody (prologue slots f.inputs).2 f.body
    return (.assertHeapLength f.inputs.length :: (prologue slots f.inputs).1 ++ code, inner) :=
  (adds_emitPrologue f.inputs).bind fun _ => (Statement.adds_emitBody f.body).bind fun _ => .pure _

/-- Compiling a function never breaks off, and gives its code. -/
theorem emit_eq_compile (f : Function) : f.emit = some f.compile := by
  obtain ⟨result, names, hrun, hresult⟩ := f.adds_emission SlotTable.empty
  have hcompile : f.compile = result := by
    calc
      f.compile = Except.map Prod.fst _ := by
        change Statement.compileBody (prologue Scope.empty f.inputs).2 f.body >>= _ =
          Except.map _ (Statement.compileBody (prologue Scope.empty f.inputs).2 f.body >>= _)
        cases Statement.compileBody (prologue Scope.empty f.inputs).2 f.body <;> rfl
      _ = Except.map Prod.fst (result.map _) :=
        congrArg (Except.map Prod.fst) (hresult SlotTable.dense_empty)
      _ = result := by cases result <;> rfl
  rw [emit, hrun, hcompile]
  rfl

end Function

end StoredProcedure
