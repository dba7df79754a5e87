import StoredProcedure.Rewriter

/-!
Lowering: every access to a global object becomes an access to its store.

A global object may be the root of a selection, the value whose field is asked for, the source of
keys or the target of an update; each of these has a store access of its own. Anywhere else it has
no meaning, because a global object is no value.
-/

namespace StoredProcedure

namespace Lowering

/-- The name of a global object, which has to be declared if `declared` lists the declared ones. -/
def check (declared : Option NameSet) (name : String) : Except Fault String :=
  match declared with
  | some globals => if name ∈ globals then .ok name else .error (.undeclaredGlobal name)
  | none => .ok name

/-- A store is accessed by at least one key. -/
def requireKey {α : Type} (store : String) (key : List α) : Except Fault Unit :=
  if key.isEmpty then .error (.keyMissing store) else .ok ()

theorem exists_requireKey_iff {α : Type} {store : String} {key : List α} :
    (∃ u, requireKey store key = .ok u) ↔ key ≠ [] := by
  cases key <;> simp [requireKey]

/-- Only fields of a variable can be deleted, not the variable. -/
def requireField {α : Type} (name : String) (level : List α) : Except Fault Unit :=
  if level.isEmpty then .error (.variableDeleted name) else .ok ()

theorem exists_requireField_iff {α : Type} {name : String} {level : List α} :
    (∃ u, requireField name level = .ok u) ↔ level ≠ [] := by
  cases level <;> simp [requireField]

/-- The name of the first part that is a global object itself. -/
def firstGlobal? : List Part → Option String
  | [] => none
  | part :: rest =>
      match part.source with
      | .globalObject name => some name
      | _ => firstGlobal? rest

/-- What becomes of the parts, none of which may be a global object itself. -/
def withoutGlobals (fault : String → Fault) (parts : List Part) : Except Fault (List Expr) :=
  match firstGlobal? parts with
  | some name => .error (fault name)
  | none => Part.results parts

/-- A selection from a global object is the whole object without a key, the keys of the object if
`keys` is selected first, and the value of a key otherwise. The operand of `keys` is ignored. -/
def selection (declared : Option NameSet) (root : Part) (level : List Part) :
    Except Fault Expr :=
  match root.source with
  | .globalObject name => do
      let store ← check declared name
      match level with
      | [] => return .wholeObject store
      | first :: rest =>
          match first.source with
          | .keys _ =>
              if rest.isEmpty then return .keysOfObject store
              else return .selection (.keysOfObject store) (← Part.results rest)
          | _ => return .keyOfObject store (← Part.results level)
  | _ => do return .selection (← root.result) (← Part.results level)

def fieldExists (declared : Option NameSet) (value field : Part) : Except Fault Expr :=
  match value.source with
  | .globalObject name => do
      let store ← check declared name
      return .keyExists store (← field.result)
  | _ => do return .fieldExists (← value.result) (← field.result)

def keys (declared : Option NameSet) (source : Part) : Except Fault Expr :=
  match source.source with
  | .globalObject name => do return .keysOfObject (← check declared name)
  | _ => do return .keys (← source.result)

/-- An update of a global object writes its store. -/
def update (declared : Option NameSet) (target : Target) (level : List Part) (edit : EditResult) :
    Except Fault Statement :=
  match target with
  | .saved name => do
      if let .deleteField := edit then requireField name level
      let level ← Part.results level
      match edit with
      | .push values => return .update (.saved name) level (.push (← values))
      | .deleteField => return .update (.saved name) level .deleteField
      | .set value => return .update (.saved name) level (.set (← value))
  | .globalObject name => do
      let store ← check declared name
      requireKey store level
      let key ← Part.results level
      match edit with
      | .push values => return .pushAtKey store key (← values)
      | .deleteField => return .deleteKey store key
      | .set value => return .setKey store key (← value)

/-- The rewriter that lowers, given the declared global objects; none means that any may be
accessed. -/
def rewriter (declared : Option NameSet) : Rewriter where
  selection := selection declared
  fieldExists := fieldExists declared
  keys := keys declared
  array := fun values => do return .array (← withoutGlobals .globalInArray values)
  pushed := withoutGlobals .globalInPush
  update := update declared

end Lowering

/-- The function with every access to a global object replaced by an access to its store. -/
def Function.lower (declared : Option NameSet) (f : Function) : Except Fault Function := do
  return { f with body := ← (Lowering.rewriter declared).rewriteBody f.body }

namespace Program

/-- Lowers one function of a program. -/
def lowerFunction (p : Program) (name : String) (f : Function) : Except Failure Function :=
  match f.lower p.declared with
  | .ok f => .ok f
  | .error fault => .error ((Failure.ofFault fault).inFunction name)

/-- The program with all functions lowered. -/
def lower (p : Program) : Except Failure Program := do
  return { p with functions := ← p.functions.traverse p.lowerFunction }

end Program

end StoredProcedure
