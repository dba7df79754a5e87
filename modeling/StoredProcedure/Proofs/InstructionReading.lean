import StoredProcedure.Digest.Procedure
import StoredProcedure.Instruction.Reader
import StoredProcedure.Proofs.ByteOrder
import StoredProcedure.Proofs.ProgramReading

namespace StoredProcedure

namespace Instruction

variable {levels : Nat}

/-- The numbers of an instruction: slots, counts, offsets and depths. -/
def numbers : Instruction → List Nat
  | .deepArrayPush n | .stackToHeapArray n | .copyFromHeap n | .overwriteHeap n => [n]
  | .truncateHeap n | .assertHeapLength n | .enforceSchema _ n => [n]
  | .getField n | .setField n | .concatStrings n _ | .jump n _ | .skipIf n | .invoke _ n => [n]
  | .setSavedField depth slot | .deleteSavedField depth slot => [depth, slot]
  | .pushSavedField depth slot => [depth, slot]
  | _ => []

theorem nat?_number {n : Nat} (h : n < 2 ^ 64) : nat? (number n).document = some n := by
  have hmod : n % 0x10000000000000000 = n := Nat.mod_eq_of_lt h
  rw [nat?, Document.json?_document (number n) (Nat.zero_le 0)]
  show (if 0 ≤ ((n % 0x10000000000000000 : Nat) : Int) then
    some ((n % 0x10000000000000000 : Nat) : Int).toNat else none) = _
  rw [if_pos (Int.natCast_nonneg _), Int.toNat_natCast, hmod]

section Families

variable {name : String} {m n : Nat}

theorem ofNameAndData?_number (around : Document → Document) (make : Nat → Instruction)
    (hopen : ∀ d, ofNameAndData? levels name (some (around d)) = nat? d >>= fun n => some (make n))
    (h : ∀ k ∈ [n], k < 2 ^ 64) :
    ofNameAndData? levels name (some (around (number n).document)) = some (make n) := by
  rw [hopen, nat?_number (h n List.mem_cons_self)]
  rfl

theorem ofNameAndData?_savedField {make : Nat → Nat → Instruction}
    (hopen : ∀ d e,
      ofNameAndData? levels name (some (.object [(some "field_depth", d), (some "index", e)])) =
        nat? d >>= fun m => nat? e >>= fun n => some (make m n))
    (h : ∀ k ∈ [m, n], k < 2 ^ 64) :
    ofNameAndData? levels name
      (some (.object [(some "field_depth", (number m).document),
        (some "index", (number n).document)])) = some (make m n) := by
  obtain ⟨hm, hn⟩ := List.forall_mem_cons.mp h
  rw [hopen, nat?_number hm, nat?_number (hn n List.mem_cons_self)]
  rfl

theorem ofNameAndData?_projection {make : String → Datum → Instruction} (store : String)
    (projection : Datum)
    (hopen : ∀ data, ofNameAndData? levels name data =
      projection? levels data >>= fun (store, projection) => some (make store projection))
    (h : (Json.array [.string store, projection.json]).depth ≤ levels) :
    ofNameAndData? levels name (some (Json.array [.string store, projection.json]).document) =
      some (make store projection) := by
  have hdepth := Json.depth_array_le h projection.json (by simp)
  have hread : projection? levels (some (Json.array [.string store, projection.json]).document) =
      Datum.ofDocument? (levels - 1) projection.json.document >>= fun projection =>
        some (store, projection) := rfl
  rw [hopen, hread, Datum.ofDocument?_json hdepth]
  rfl

theorem ofNameAndData?_literal {make : Datum → Instruction} (value : Datum)
    (hopen : ∀ d, ofNameAndData? levels name (some d) =
      Datum.ofDocument? levels d >>= fun value => some (make value))
    (h : value.json.depth ≤ levels) :
    ofNameAndData? levels name (some value.json.document) = some (make value) := by
  rw [hopen, Datum.ofDocument?_json h]
  rfl

end Families

theorem ofNameAndData?_data : (i : Instruction) → (∀ n ∈ i.numbers, n < 2 ^ 64) →
    (∀ data ∈ i.data?, data.depth ≤ levels) →
    ofNameAndData? levels i.name (i.data?.map Json.document) = some i
  | .popStack, _, _ | .popArray, _, _ | .arrayPush, _, _ | .arrayLength, _, _
  | .stackToHeap, _, _ | .fieldExists, _, _ | .getKeys, _, _ | .equal, _, _ | .less, _, _
  | .lessEqual, _, _ | .and, _, _ | .or, _, _ | .negate, _, _ | .add, _, _ | .subtract, _, _
  | .multiply, _, _ | .divide, _, _ | .typeOf, _, _ | .isNull, _, _ | .noop, _, _
  | .returnTop, _, _ | .returnVoid, _, _ | .signRole, _, _ | .repackage, _, _ => rfl
  | .tryGetField _, _, _ | .raise _, _, _ | .getAll _, _, _ | .deleteOne _, _, _ => rfl
  | .hasType _, _, _ | .updateOne _ _, _, _ => rfl
  | .stackToHeapArray _, h, _ => ofNameAndData?_number id .stackToHeapArray (fun _ => rfl) h
  | .copyFromHeap _, h, _ => ofNameAndData?_number id .copyFromHeap (fun _ => rfl) h
  | .overwriteHeap _, h, _ => ofNameAndData?_number id .overwriteHeap (fun _ => rfl) h
  | .truncateHeap _, h, _ => ofNameAndData?_number id .truncateHeap (fun _ => rfl) h
  | .assertHeapLength _, h, _ => ofNameAndData?_number id .assertHeapLength (fun _ => rfl) h
  | .skipIf _, h, _ => ofNameAndData?_number id .skipIf (fun _ => rfl) h
  | .deepArrayPush _, h, _ =>
      ofNameAndData?_number (fun d => .object [(some "stack_offset", d)]) .deepArrayPush
        (fun _ => rfl) h
  | .getField _, h, _ =>
      ofNameAndData?_number (fun d => .object [(some "field_depth", d)]) .getField
        (fun _ => rfl) h
  | .setField _, h, _ =>
      ofNameAndData?_number (fun d => .object [(some "field_depth", d)]) .setField
        (fun _ => rfl) h
  | .concatStrings _ joiner, h, _ =>
      ofNameAndData?_number
        (fun d => .object [(some "nStrings", d), (some "joiner", .string (some joiner))])
        (fun count => .concatStrings count joiner) (fun _ => rfl) h
  | .jump _ forward, h, _ =>
      ofNameAndData?_number (fun d => .object [(some "offset", d), (some "fwd", .bool forward)])
        (fun offset => .jump offset forward) (fun _ => rfl) h
  | .invoke function _, h, _ =>
      ofNameAndData?_number
        (fun d => .object [(some "name", .string (some function)), (some "args", d)])
        (.invoke function) (fun _ => rfl) h
  | .setSavedField _ _, h, _ | .deleteSavedField _ _, h, _ | .pushSavedField _ _, h, _ =>
      ofNameAndData?_savedField (fun _ _ => rfl) h
  | .findOne store projection, _, h | .query store projection, _, h =>
      ofNameAndData?_projection store projection (fun _ => rfl) (h _ rfl)
  | .instantiate value, _, h => ofNameAndData?_literal value (fun _ => rfl) (h _ rfl)
  | .enforceSchema schema slot, hslot, h => by
      have hopen : ∀ d e, ofNameAndData? levels "enforceSchemaInstanceOnHeap"
          (some (.object [(some "schema", d), (some "heap_pos", e)])) =
            Datum.ofDocument? (levels - 1) d >>= fun schema =>
              nat? e >>= fun slot => some (.enforceSchema schema slot) := fun _ _ => rfl
      have hdepth := Json.depth_object_le (h _ rfl) ("schema", schema.json) List.mem_cons_self
      refine (hopen _ _).trans ?_
      rw [Datum.ofDocument?_json hdepth, nat?_number (hslot slot List.mem_cons_self)]
      rfl

/-- An instruction is read by its name and its data. -/
theorem ofDocument?_toJson (i : Instruction) :
    ofDocument? levels i.toJson.document =
      ofNameAndData? (levels - 1) i.name (i.data?.map Json.document) := by
  rw [ofDocument?, toJson, Document.fields?_object]
  cases i.data? <;> simp [dataFirst]

theorem depth_data?_le {i : Instruction} (h : i.toJson.depth ≤ levels) :
    ∀ data ∈ i.data?, data.depth ≤ levels - 1 := by
  intro data hdata
  have hmembers := Json.depth_object_le h
  rw [Option.mem_def.mp hdata] at hmembers
  exact hmembers ("data", data) (List.mem_cons_of_mem _ List.mem_cons_self)

end Instruction

namespace Code

/-- The numbers of the instructions are those of a 64-bit word. -/
def InRange (code : Code) : Prop :=
  ∀ i ∈ code, ∀ n ∈ i.numbers, n < 2 ^ 64

instance : DecidablePred InRange := fun code =>
  inferInstanceAs (Decidable (∀ i ∈ code, ∀ n ∈ i.numbers, n < 2 ^ 64))

/-- A list of instructions is read back from its document at every limit that is not below its
depth. -/
theorem ofDocument?_toJson {code : Code} (hrange : code.InRange) {levels : Nat}
    (h : code.toJson.depth ≤ levels) : ofDocument? levels code.toJson.document = some code := by
  apply Document.listOf?_map
  intro i hi
  rw [Instruction.ofDocument?_toJson]
  have hdepth := Json.depth_array_le h i.toJson (List.mem_map_of_mem hi)
  exact i.ofNameAndData?_data (hrange i hi) (Instruction.depth_data?_le hdepth)

theorem ofBytes?_compact {code : Code} (hrange : code.InRange) {levels : Nat}
    (h : code.toJson.depth ≤ levels) :
    (Document.ofBytes? code.toJson.compact.toUTF8).bind (ofDocument? levels) = some code := by
  rw [Document.ofBytes?_toUTF8, Document.ofString?_compact]
  exact ofDocument?_toJson hrange h

theorem eq_of_compact_eq {code other : Code} (hrange : code.InRange) (hother : other.InRange)
    (h : code.toJson.compact = other.toJson.compact) : code = other := by
  have hcode := ofBytes?_compact hrange (Nat.le_max_left _ other.toJson.depth)
  have hread := ofBytes?_compact hother (Nat.le_max_right code.toJson.depth _)
  rw [h, hread] at hcode
  exact (Option.some.inj hcode).symm

end Code

namespace Sha256

theorem digitChar_inj : ∀ m < 16, ∀ n < 16, Nat.digitChar m = Nat.digitChar n → m = n := by
  decide

theorem eq_of_hex_eq {bytes others : List UInt8} (h : hex bytes = hex others) :
    bytes = others := by
  have hchars := String.ofList_injective h
  clear h
  induction bytes generalizing others with
  | nil =>
      cases others with
      | nil => rfl
      | cons other rest => cases hchars
  | cons byte bytes ih =>
      cases others with
      | nil => cases hchars
      | cons other rest =>
          simp only [List.flatMap_cons, List.cons_append, List.nil_append,
            List.cons.injEq] at hchars
          obtain ⟨hhigh, hlow, hrest⟩ := hchars
          have hbyte := byte.toNat_lt
          have hother := other.toNat_lt
          have hhigh := digitChar_inj _ (by omega) _ (by omega) hhigh
          have hlow := digitChar_inj _ (by omega) _ (by omega) hlow
          rw [ih hrest, UInt8.toNat_inj.mp (by omega : byte.toNat = other.toNat)]

end Sha256

namespace Code

theorem eq_of_digestMessage_eq {code other : Code} (hrange : code.InRange)
    (hother : other.InRange) (h : code.digestMessage = other.digestMessage) : code = other :=
  eq_of_compact_eq hrange hother (Text.eq_of_bytes_eq (List.append_cancel_left h))

/-- The text that is hashed is read back as the list of instructions, if it does not nest too deep
to be read. However deep they nest, two lists have different messages, and if they have one digest
then the hashes of these messages are the same. -/
theorem digest_faithful (code : Code) (hrange : code.InRange) :
    (∃ text : ByteArray, code.digestMessage = digestMarker ++ text.toList ∧
      (code.toJson.depth ≤ nestingLimit →
        (Document.ofBytes? text).bind (ofDocument? nestingLimit) = some code)) ∧
    ∀ other : Code, other.InRange → other ≠ code →
      other.digestMessage ≠ code.digestMessage ∧
        (other.digest = code.digest →
          Sha256.hash other.digestMessage = Sha256.hash code.digestMessage) := by
  constructor
  · exact ⟨code.toJson.compact.toUTF8, rfl, ofBytes?_compact hrange⟩
  · intro other hother hne
    constructor
    · exact fun h => hne (eq_of_digestMessage_eq hother hrange h)
    · exact fun h => Sha256.eq_of_hex_eq h

/-- A literal, and instructions with data of every form after it. -/
def assorted (literal : Datum) : Code := [
  .instantiate literal,
  .instantiate (.entry "rate" (.entry "\u00e9" (.double (.zero true)))),
  .enforceSchema .emptyObject 0xffffffffffffffff,
  .findOne "users" (.entry "" .null),
  .concatStrings 2 "\"\\\n",
  .setSavedField 1 2,
  .jump 3 false,
  .returnVoid]

theorem digest_faithful_assorted :
    ((assorted .null).InRange ∧ (assorted .null).toJson.depth ≤ nestingLimit ∧
      (assorted (.string "null")).InRange ∧ assorted (.string "null") ≠ assorted .null) ∧
    (∃ text : ByteArray, (assorted .null).digestMessage = digestMarker ++ text.toList ∧
      (Document.ofBytes? text).bind (ofDocument? nestingLimit) = some (assorted .null)) ∧
    (assorted (.string "null")).digestMessage ≠ (assorted .null).digestMessage := by
  have hrange : (assorted .null).InRange := by decide
  have hdepth : (assorted .null).toJson.depth ≤ nestingLimit := by decide
  have hother : (assorted (.string "null")).InRange := by decide
  have hne : assorted (.string "null") ≠ assorted .null := by
    intro h
    injection h with hfirst
    injection hfirst with hliteral
    cases congrArg Datum.json hliteral
  obtain ⟨⟨text, hmessage, hread⟩, hdigest⟩ := digest_faithful (assorted .null) hrange
  exact ⟨⟨hrange, hdepth, hother, hne⟩, ⟨text, hmessage, hread hdepth⟩, (hdigest _ hother hne).1⟩

end Code

end StoredProcedure
