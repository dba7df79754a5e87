/-!
Variables in scope. Scopes are opened and closed like brackets; a variable is declared in the
innermost scope and lives until that scope is closed. A later declaration hides earlier ones of the
same name.

Each live variable has a slot: the number of variables that were live when it was declared. So the
slots of the live variables are `0, 1, 2, …` in the order of declaration, which is how variables lie
on the heap of the machine. Each variable also carries what is known about it.
-/

namespace StoredProcedure

/-- The open scopes. Each lists its variables, the last declared first; `outer` lists the scopes
around the innermost one from the inside out. -/
structure Scope (α : Type) where
  inner : List (String × α)
  outer : List (List (String × α))

namespace Scope

variable {α : Type}

/-- One open scope without variables. -/
def empty : Scope α := ⟨[], []⟩

/-- The live variables, the last declared first. -/
def live (s : Scope α) : List (String × α) :=
  s.inner ++ s.outer.flatten

/-- The slot that the next variable will have. -/
def nextSlot (s : Scope α) : Nat :=
  s.live.length

/-- Declares a variable in the innermost scope. -/
def add (s : Scope α) (name : String) (value : α) : Scope α :=
  ⟨(name, value) :: s.inner, s.outer⟩

/-- Opens a scope. -/
def enter (s : Scope α) : Scope α :=
  ⟨[], s.inner :: s.outer⟩

/-- How many variables the innermost scope has declared. -/
def declared (s : Scope α) : Nat :=
  s.inner.length

/-- Closes the innermost scope. The outermost scope is emptied instead. -/
def leave (s : Scope α) : Scope α :=
  match s.outer with
  | [] => empty
  | inner :: outer => ⟨inner, outer⟩

/-- Closes the innermost scope, and says how many variables it had. The outermost scope cannot be
closed. -/
def close? (s : Scope α) : Option (Nat × Scope α) :=
  if s.outer.isEmpty then none else some (s.declared, s.leave)

/-- The slot of the last variable of a name in a list whose last declared variable comes first. -/
def slotIn (name : String) : List (String × α) → Option Nat
  | [] => none
  | (other, _) :: rest => if other = name then some rest.length else slotIn name rest

/-- The slot of a variable. -/
def slot? (s : Scope α) (name : String) : Option Nat :=
  slotIn name s.live

/-- What is known about the last variable of a name. -/
def valueIn (name : String) : List (String × α) → Option α
  | [] => none
  | (other, value) :: rest => if other = name then some value else valueIn name rest

/-- What is known about a variable. -/
def value? (s : Scope α) (name : String) : Option α :=
  valueIn name s.live

/-- Changes what is known about the last variable of a name, or nothing if there is none. -/
def modifyIn (name : String) (f : α → α) : List (String × α) → List (String × α)
  | [] => []
  | (other, value) :: rest =>
      if other = name then (other, f value) :: rest else (other, value) :: modifyIn name f rest

def modifyOuter (name : String) (f : α → α) : List (List (String × α)) → List (List (String × α))
  | [] => []
  | scope :: rest =>
      if (valueIn name scope).isSome then modifyIn name f scope :: rest
      else scope :: modifyOuter name f rest

/-- Changes what is known about a variable. -/
def modify (s : Scope α) (name : String) (f : α → α) : Scope α :=
  if (valueIn name s.inner).isSome then ⟨modifyIn name f s.inner, s.outer⟩
  else ⟨s.inner, modifyOuter name f s.outer⟩

@[simp] theorem leave_enter (s : Scope α) : s.enter.leave = s := rfl

@[simp] theorem close?_enter (s : Scope α) : s.enter.close? = some (0, s) := rfl

@[simp] theorem live_add (s : Scope α) (name : String) (value : α) :
    (s.add name value).live = (name, value) :: s.live := rfl

@[simp] theorem live_enter (s : Scope α) : s.enter.live = s.live := rfl

@[simp] theorem nextSlot_add (s : Scope α) (name : String) (value : α) :
    (s.add name value).nextSlot = s.nextSlot + 1 := rfl

end Scope

end StoredProcedure
