import StoredProcedure.Instruction.Basic
import StoredProcedure.Syntax.Reader

namespace StoredProcedure.Instruction

/-- A number of an instruction. -/
def nat? (d : Document) : Option Nat := do
  (← d.json? 0).nat?

def bool? (d : Document) : Option Bool := do
  (← d.json? 0).bool?

/-- An instruction without parameters has no data, or null. -/
def plain? (i : Instruction) : Option Document → Option Instruction
  | none | some .null => some i
  | some _ => none

/-- The named parameters of an instruction. -/
def parameters? (names : List String) (data : Option Document) : Option (List Document) := do
  match ← data with
  | .object members => (← (Document.object members).fields?).all? names
  | _ => none

/-- The name of a store and a projection. -/
def projection? (levels : Nat) (data : Option Document) : Option (String × Datum) := do
  match ← data with
  | .array [store, projection] => return (← store.text?, ← Datum.ofDocument? (levels - 1) projection)
  | _ => none

/-- The instruction of a name with its data, in which `levels` levels may be nested. -/
def ofNameAndData? (levels : Nat) (name : String) (data : Option Document) : Option Instruction :=
  match name with
  | "instantiate" => do return .instantiate (← Datum.ofDocument? levels (← data))
  | "popStack" => plain? .popStack data
  | "popArray" => plain? .popArray data
  | "arrayPush" => plain? .arrayPush data
  | "pArrayPush" => do
      let [stackOffset] ← parameters? ["stack_offset"] data | none
      return .deepArrayPush (← nat? stackOffset)
  | "ndArrayLen" => plain? .arrayLength data
  | "moveStackTopToHeap" => plain? .stackToHeap data
  | "moveStackToHeapArray" => do return .stackToHeapArray (← nat? (← data))
  | "copyFromHeap" => do return .copyFromHeap (← nat? (← data))
  | "overwriteHeap" => do return .overwriteHeap (← nat? (← data))
  | "truncateHeap" => do return .truncateHeap (← nat? (← data))
  | "assertHeapLen" => do return .assertHeapLength (← nat? (← data))
  | "enforceSchemaInstanceOnHeap" => do
      let [schema, slot] ← parameters? ["schema", "heap_pos"] data | none
      return .enforceSchema (← Datum.ofDocument? (levels - 1) schema) (← nat? slot)
  | "getField" => do
      let [depth] ← parameters? ["field_depth"] data | none
      return .getField (← nat? depth)
  | "setField" => do
      let [depth] ← parameters? ["field_depth"] data | none
      return .setField (← nat? depth)
  | "setSavedField" => do
      let [depth, slot] ← parameters? ["field_depth", "index"] data | none
      return .setSavedField (← nat? depth) (← nat? slot)
  | "deleteSavedField" => do
      let [depth, slot] ← parameters? ["field_depth", "index"] data | none
      return .deleteSavedField (← nat? depth) (← nat? slot)
  | "pushSavedField" => do
      let [depth, slot] ← parameters? ["field_depth", "index"] data | none
      return .pushSavedField (← nat? depth) (← nat? slot)
  | "fieldExists" => plain? .fieldExists data
  | "tryGetField" => do return .tryGetField (← (← data).text?)
  | "getKeys" => plain? .getKeys data
  | "stringConcat" => do
      let [count, joiner] ← parameters? ["nStrings", "joiner"] data | none
      return .concatStrings (← nat? count) (← joiner.text?)
  | "equal" => plain? .equal data
  | "less" => plain? .less data
  | "lesseq" => plain? .lessEqual data
  | "boolAnd" => plain? .and data
  | "boolOr" => plain? .or data
  | "negatePrev" => plain? .negate data
  | "plus" => plain? .add data
  | "nMinus" => plain? .subtract data
  | "nMult" => plain? .multiply data
  | "nDivide" => plain? .divide data
  | "getType" => plain? .typeOf data
  | "stackTopMatches" => do
      let [type] ← parameters? ["schema"] data | none
      return .hasType (← type.text?)
  | "isLastNone" => plain? .isNull data
  | "offsetOpCursor" => do
      let [offset, forward] ← parameters? ["offset", "fwd"] data | none
      return .jump (← nat? offset) (← bool? forward)
  | "conditonallySkipXops" => do return .skipIf (← nat? (← data))
  | "noop" => plain? .noop data
  | "returnStackTop" => plain? .returnTop data
  | "returnVoid" => plain? .returnVoid data
  | "raiseError" => do return .raise (← (← data).text?)
  | "invoke" => do
      let [function, args] ← parameters? ["name", "args"] data | none
      return .invoke (← function.text?) (← nat? args)
  | "signRole" => plain? .signRole data
  | "getAllFromStore" => do return .getAll (← (← data).text?)
  | "repackageCollection" => plain? .repackage data
  | "findOneInStore" => do
      let (store, projection) ← projection? levels data
      return .findOne store projection
  | "queryStore" => do
      let (store, projection) ← projection? levels data
      return .query store projection
  | "updateOne" => do
      let [store, upsert] ← parameters? ["store", "upsert"] data | none
      return .updateOne (← store.text?) (← bool? upsert)
  | "deleteOneInStore" => do return .deleteOne (← (← data).text?)
  | _ => none

/-- Do the data come before the kind among these members? -/
def dataFirst (members : List (String × Document)) : Bool :=
  (members.find? fun member => member.1 = "kind" ∨ member.1 = "data").any fun member =>
    member.1 = "data"

/-- An instruction that is a part of a document, `levels` levels being left. -/
def ofDocument? (levels : Nat) (d : Document) : Option Instruction := do
  match ← d.fields? with
  | .named members =>
      let [some kind, data] ← (Fields.named members).values? ["kind", "data"] | none
      if dataFirst members then
        let _ ← (← data).json? (levels - 1)
      ofNameAndData? (levels - 1) (← kind.text?) data
  | .listed [kind, data] => ofNameAndData? (levels - 1) (← kind.text?) (some data)
  | .listed _ => none

end StoredProcedure.Instruction

namespace StoredProcedure

/-- A list of instructions. -/
def Code.ofDocument? (levels : Nat) (d : Document) : Option Code :=
  d.listOf? (Instruction.ofDocument? (levels - 1))

end StoredProcedure
