import StoredProcedure.Instruction.Basic

/-!
Code for the access to stores, put together from the code of keys and values.

A store holds the documents of one global object. A document has the fields `_key` and `_val`. The
first key of an access selects the document, and further keys lead into its `_val`, either field by
field or by a path whose steps are joined with points.
-/

namespace StoredProcedure.Code

/-- Pushes a text. -/
def text (value : String) : Instruction := .instantiate (.string value)

/-- Leaves the filter that selects the document of a key. -/
def keyFilter (first : Code) : Code :=
  .instantiate (.entry "_key" .emptyObject) :: text "_key" :: first ++ [.setField 1]

/-- Leaves the path of nested keys, of which there are `count`. -/
def nestedPath (count : Nat) (rest : Code) : Code :=
  text "_val" :: rest ++ [.concatStrings (count + 1) "."]

/-- Leaves the document that says that each of some values is to be pushed. -/
def eachDocument (values : Code) : Code :=
  .instantiate .emptyObject :: text "$each" :: values ++ [.setField 1]

/-- Runs an update, and fails if it found no document. -/
def updateDocument (store : String) (upsert : Bool) (first : Code) : Code :=
  keyFilter first ++
    [.updateOne store upsert, .isNull, .skipIf 2, .popStack, .jumpForward 1,
      .raise "Nested key does not exist"]

/-- Leaves the whole object. -/
def wholeObject (store : String) : Code :=
  [.getAll store, .repackage]

/-- Leaves the value of a key with `count` nested keys. Without nested keys a missing document gives
null; with nested keys it is an error. -/
def keyOfObject (store : String) (first : Code) (count : Nat) (rest : Code) : Code :=
  let found := if count = 0 then [] else rest ++ [.getField count]
  let missing := if count = 0 then [] else [.raise "Key does not exist on global"]
  keyFilter first ++
    [.findOne store .emptyObject, .isNull, .skipIf (1 + found.length + missing.length),
      .tryGetField "_val"] ++
    found ++ .jumpForward (missing.length + 1) :: missing ++ [.instantiate .null]

/-- Leaves whether there is a document of a key. -/
def keyExists (store : String) (key : Code) : Code :=
  keyFilter key ++
    [.findOne store (.entry "_val" (.bool false)), .isNull, .skipIf 3, .popStack,
      .instantiate (.bool true), .jumpForward 2, .popStack, .instantiate (.bool false)]

/-- Pushes the number zero. -/
def zero : Instruction := .instantiate (.int ⟨0, by decide, by decide⟩)

/-- Leaves the array of the keys: a loop takes each document off the queried array and pushes its
key to another array. -/
def keysOfObject (store : String) : Code :=
  [.instantiate .emptyArray, .instantiate .emptyObject,
    .query store (.entry "_val" (.bool false)), .arrayLength, zero, .equal, .skipIf 5, .popArray,
    text "_key", .getField 1, .deepArrayPush 1, .jumpBack 8, .popStack]

/-- Sets the value of a key with `count` nested keys. Without nested keys a missing document is
made. -/
def setKey (store : String) (first : Code) (count : Nat) (rest value : Code) : Code :=
  let place := if count = 0 then
      [.instantiate (.entry "$set" (.entry "_val" .emptyObject)), text "$set", text "_val"]
    else .instantiate (.entry "$set" .emptyObject) :: text "$set" :: nestedPath count rest
  place ++ value ++ .setField 2 :: updateDocument store (count = 0) first

/-- Pushes an array of values to the value of a key with `count` nested keys. Without nested keys a
missing document is made. -/
def pushAtKey (store : String) (first : Code) (count : Nat) (rest values : Code) : Code :=
  let push := if count = 0 then
      .instantiate (.entry "$push" (.entry "_val" .emptyObject)) :: text "$push" :: text "_val" ::
        text "$each" :: values ++ [.setField 3]
    else
      .instantiate (.entry "$push" .emptyObject) :: text "$push" :: nestedPath count rest ++
        eachDocument values ++ [.setField 2]
  push ++ updateDocument store (count = 0) first

/-- Deletes the document of a key, or what `count` nested keys lead to in it. -/
def deleteKey (store : String) (first : Code) (count : Nat) (rest : Code) : Code :=
  let delete := if count = 0 then keyFilter first ++ [.deleteOne store]
    else
      .instantiate (.entry "$unset" .emptyObject) :: text "$unset" :: nestedPath count rest ++
        [text "", .setField 2] ++ keyFilter first ++ [.updateOne store false]
  delete ++ [.popStack]

end StoredProcedure.Code
