import StoredProcedure.Json.Basic

/-!
The instructions of the machine that procedures run on. The machine has a stack of operands, a heap
that holds the variables by slot, and a cursor into the instruction list. After an instruction the
cursor moves on by one; `skipIf` and `jump` move it further or back.
-/

namespace StoredProcedure

inductive Instruction where
  /-- Pushes a literal. -/
  | instantiate (value : Datum)
  | popStack
  /-- Takes the last element off the array on top and pushes it. -/
  | popArray
  | arrayPush
  /-- Pushes to the array that lies deeper in the stack by an offset. -/
  | deepArrayPush (stackOffset : Nat)
  /-- Pushes the length of the array on top, which stays. -/
  | arrayLength
  /-- Moves the top of the stack to a new slot of the heap. -/
  | stackToHeap
  | stackToHeapArray (slot : Nat)
  | copyFromHeap (slot : Nat)
  | overwriteHeap (slot : Nat)
  | truncateHeap (count : Nat)
  | assertHeapLength (length : Nat)
  | enforceSchema (schema : Datum) (slot : Nat)
  | getField (depth : Nat)
  | setField (depth : Nat)
  | setSavedField (depth slot : Nat)
  | deleteSavedField (depth slot : Nat)
  | pushSavedField (depth slot : Nat)
  | fieldExists
  | tryGetField (field : String)
  | getKeys
  | concatStrings (count : Nat) (joiner : String)
  | equal
  | less
  | lessEqual
  | and
  | or
  | negate
  | add
  | subtract
  | multiply
  | divide
  | typeOf
  | hasType (type : String)
  /-- Pushes whether the top of the stack is null; the top stays. -/
  | isNull
  /-- Moves the cursor over the next `offset` instructions, or to `offset` instructions before this
  one. -/
  | jump (offset : Nat) (forward : Bool)
  /-- Pops a truth value and moves the cursor over the next `count` instructions if it holds. -/
  | skipIf (count : Nat)
  | noop
  | returnTop
  | returnVoid
  | raise (message : String)
  | invoke (function : String) (args : Nat)
  | signRole
  | getAll (store : String)
  | repackage
  | findOne (store : String) (projection : Datum)
  | query (store : String) (projection : Datum)
  | updateOne (store : String) (upsert : Bool)
  | deleteOne (store : String)

/-- The instructions of a procedure, or of a part of one. -/
abbrev Code := List Instruction

namespace Instruction

def jumpForward (offset : Nat) : Instruction := .jump offset true

def jumpBack (offset : Nat) : Instruction := .jump offset false

end Instruction

end StoredProcedure
