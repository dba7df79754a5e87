import StoredProcedure.Code.Store
import StoredProcedure.Fault
import StoredProcedure.Scope

namespace StoredProcedure

/-- The variables that lie on the heap. -/
abbrev Slots := Scope Unit

/-- The slot of a variable, which has to be in scope. -/
def Slots.resolve (slots : Slots) (name : String) : Except Fault Nat :=
  match slots.slot? name with
  | some slot => .ok slot
  | none => .error (.unknownVariable name)

/-- The machine has the comparisons "equal", "less" and "less or equal"; the others are their
negations. -/
def Comparison.code : Comparison → Code
  | .equal => [.equal]
  | .notEqual => [.equal, .negate]
  | .less => [.less]
  | .greater => [.lessEqual, .negate]
  | .lessEqual => [.lessEqual]
  | .greaterEqual => [.less, .negate]

def Arithmetic.instruction : Arithmetic → Instruction
  | .add => .add
  | .subtract => .subtract
  | .multiply => .multiply
  | .divide => .divide

def Logic.instruction : Logic → Instruction
  | .and => .and
  | .or => .or

namespace Expr

mutual
def compile (slots : Slots) : Expr → Except Fault Code
  | .bool value => .ok [.instantiate (.bool value)]
  | .int value => .ok [.instantiate (.int (WordInt.ofInt64 value))]
  | .double value => .ok [.instantiate (.double value)]
  | .string value => .ok [.instantiate (.string value)]
  | .nothing => .ok [.instantiate .null]
  | .object fields => do return .instantiate .emptyObject :: (← compileFields slots fields)
  | .comparison sign left right => do
      let left ← left.compile slots
      let right ← right.compile slots
      return left ++ right ++ sign.code
  | .arithmetic sign left right => do
      let left ← left.compile slots
      let right ← right.compile slots
      return left ++ right ++ [sign.instruction]
  | .logic sign left right => do
      let left ← left.compile slots
      let right ← right.compile slots
      return left ++ right ++ [sign.instruction]
  | .negation value => do return (← value.compile slots) ++ [.negate]
  | .typeOf value => do return (← value.compile slots) ++ [.typeOf]
  | .hasType value type => do return (← value.compile slots) ++ [.hasType type]
  | .saved name => do return [.copyFromHeap (← slots.resolve name)]
  | .selection root level => do
      let root ← root.compile slots
      if level.isEmpty then return root
      else return root ++ (← compileList slots level) ++ [.getField level.length]
  | .fieldExists value field => do
      let value ← value.compile slots
      let field ← field.compile slots
      return value ++ field ++ [.fieldExists]
  | .keys source => do return (← source.compile slots) ++ [.getKeys]
  | .array values => do return .instantiate .emptyArray :: (← compilePushes slots values)
  | .call function args => do
      return (← compileList slots args) ++ [.invoke function args.length]
  | .role schema state =>
      match schema.roleName? with
      | none => .error (.roleMissing schema)
      | some name => do
          return .instantiate (.entry "_name" (.string name)) :: (← compileState slots state) ++
            [.signRole]
  | .globalObject name => .error (.globalNotLowered name)
  | .wholeObject store => .ok (Code.wholeObject store)
  | .keyOfObject store [] => .error (.keyMissing store)
  | .keyOfObject store (first :: rest) => do
      let nested ← compileList slots rest
      let first ← first.compile slots
      return Code.keyOfObject store first rest.length nested
  | .keyExists store key => do return Code.keyExists store (← key.compile slots)
  | .keysOfObject store => .ok (Code.keysOfObject store)
termination_by structural e => e

/-- Pushes the values of expressions, the first first. -/
def compileList (slots : Slots) : List Expr → Except Fault Code
  | [] => .ok []
  | e :: rest => do
      let code ← e.compile slots
      return code ++ (← compileList slots rest)
termination_by structural es => es

/-- Pushes each value to the array on top. -/
def compilePushes (slots : Slots) : List Expr → Except Fault Code
  | [] => .ok []
  | e :: rest => do
      let code ← e.compile slots
      return code ++ .arrayPush :: (← compilePushes slots rest)
termination_by structural es => es

/-- Sets each field of the object on top. -/
def compileFields (slots : Slots) : List (Expr × Expr) → Except Fault Code
  | [] => .ok []
  | (key, value) :: rest => do
      let key ← key.compile slots
      let value ← value.compile slots
      return key ++ value ++ .setField 1 :: (← compileFields slots rest)
termination_by structural fields => fields

/-- Sets the state of the role instance on top, if it has one. -/
def compileState (slots : Slots) : Option Expr → Except Fault Code
  | none => .ok []
  | some state => do return Code.text "_state" :: (← state.compile slots) ++ [.setField 1]
termination_by structural state => state
end

/-- Leaves the array of the values. -/
def compileArray (slots : Slots) (values : List Expr) : Except Fault Code := do
  return .instantiate .emptyArray :: (← compilePushes slots values)

end Expr

end StoredProcedure
