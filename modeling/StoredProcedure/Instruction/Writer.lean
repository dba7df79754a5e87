import StoredProcedure.Instruction.Basic

namespace StoredProcedure.Instruction

/-- The name of an instruction on the machine. -/
def name : Instruction → String
  | .instantiate _ => "instantiate"
  | .popStack => "popStack"
  | .popArray => "popArray"
  | .arrayPush => "arrayPush"
  | .deepArrayPush _ => "pArrayPush"
  | .arrayLength => "ndArrayLen"
  | .stackToHeap => "moveStackTopToHeap"
  | .stackToHeapArray _ => "moveStackToHeapArray"
  | .copyFromHeap _ => "copyFromHeap"
  | .overwriteHeap _ => "overwriteHeap"
  | .truncateHeap _ => "truncateHeap"
  | .assertHeapLength _ => "assertHeapLen"
  | .enforceSchema _ _ => "enforceSchemaInstanceOnHeap"
  | .getField _ => "getField"
  | .setField _ => "setField"
  | .setSavedField _ _ => "setSavedField"
  | .deleteSavedField _ _ => "deleteSavedField"
  | .pushSavedField _ _ => "pushSavedField"
  | .fieldExists => "fieldExists"
  | .tryGetField _ => "tryGetField"
  | .getKeys => "getKeys"
  | .concatStrings _ _ => "stringConcat"
  | .equal => "equal"
  | .less => "less"
  | .lessEqual => "lesseq"
  | .and => "boolAnd"
  | .or => "boolOr"
  | .negate => "negatePrev"
  | .add => "plus"
  | .subtract => "nMinus"
  | .multiply => "nMult"
  | .divide => "nDivide"
  | .typeOf => "getType"
  | .hasType _ => "stackTopMatches"
  | .isNull => "isLastNone"
  | .jump _ _ => "offsetOpCursor"
  | .skipIf _ => "conditonallySkipXops"
  | .noop => "noop"
  | .returnTop => "returnStackTop"
  | .returnVoid => "returnVoid"
  | .raise _ => "raiseError"
  | .invoke _ _ => "invoke"
  | .signRole => "signRole"
  | .getAll _ => "getAllFromStore"
  | .repackage => "repackageCollection"
  | .findOne _ _ => "findOneInStore"
  | .query _ _ => "queryStore"
  | .updateOne _ _ => "updateOne"
  | .deleteOne _ => "deleteOneInStore"

/-- A number of an instruction. -/
def number (n : Nat) : Json :=
  .int (WordInt.ofCount n)

/-- The parameters of an instruction, if it has any. -/
def data? : Instruction → Option Json
  | .instantiate value => some value.json
  | .deepArrayPush stackOffset => some (.object [("stack_offset", number stackOffset)])
  | .stackToHeapArray slot => some (number slot)
  | .copyFromHeap slot => some (number slot)
  | .overwriteHeap slot => some (number slot)
  | .truncateHeap count => some (number count)
  | .assertHeapLength length => some (number length)
  | .enforceSchema schema slot =>
      some (.object [("schema", schema.json), ("heap_pos", number slot)])
  | .getField depth => some (.object [("field_depth", number depth)])
  | .setField depth => some (.object [("field_depth", number depth)])
  | .setSavedField depth slot =>
      some (.object [("field_depth", number depth), ("index", number slot)])
  | .deleteSavedField depth slot =>
      some (.object [("field_depth", number depth), ("index", number slot)])
  | .pushSavedField depth slot =>
      some (.object [("field_depth", number depth), ("index", number slot)])
  | .tryGetField field => some (.string field)
  | .concatStrings count joiner =>
      some (.object [("nStrings", number count), ("joiner", .string joiner)])
  | .hasType type => some (.object [("schema", .string type)])
  | .jump offset forward => some (.object [("offset", number offset), ("fwd", .bool forward)])
  | .skipIf count => some (number count)
  | .raise message => some (.string message)
  | .invoke function args => some (.object [("name", .string function), ("args", number args)])
  | .getAll store => some (.string store)
  | .findOne store projection => some (.array [.string store, projection.json])
  | .query store projection => some (.array [.string store, projection.json])
  | .updateOne store upsert => some (.object [("store", .string store), ("upsert", .bool upsert)])
  | .deleteOne store => some (.string store)
  | _ => none

def toJson (i : Instruction) : Json :=
  let data := match i.data? with
    | some data => [("data", data)]
    | none => []
  .object (("kind", .string i.name) :: data)

end StoredProcedure.Instruction

namespace StoredProcedure

def Code.toJson (code : Code) : Json :=
  .array (code.map Instruction.toJson)

end StoredProcedure
