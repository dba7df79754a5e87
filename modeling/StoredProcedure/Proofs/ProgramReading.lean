import StoredProcedure.Proofs.JsonReading
import StoredProcedure.Proofs.SyntaxReading
import StoredProcedure.Syntax.Source

namespace StoredProcedure

namespace Json

theorem documentItems_eq_map (items : List Json) : documentItems items = items.map document := by
  induction items with
  | nil => rfl
  | cons item rest ih => rw [documentItems, ih, List.map_cons]

theorem documentMembers_eq_map (members : List (String × Json)) :
    documentMembers members = members.map fun member => (some member.1, member.2.document) := by
  induction members with
  | nil => rfl
  | cons member rest ih => rw [documentMembers, ih, List.map_cons]

theorem depth_array_le {items : List Json} {levels : Nat} (h : (Json.array items).depth ≤ levels) :
    ∀ item ∈ items, item.depth ≤ levels - 1 :=
  depthItems_le.mp (Nat.le_sub_one_of_lt h)

theorem depth_object_le {members : List (String × Json)} {levels : Nat}
    (h : (Json.object members).depth ≤ levels) :
    ∀ member ∈ members, member.2.depth ≤ levels - 1 :=
  depthMembers_le.mp (Nat.le_sub_one_of_lt h)

end Json

namespace Document

variable {α : Type}

theorem fields?_object (members : List (String × Json)) :
    (Json.object members).document.fields? =
      some (.named (members.map fun member => (member.1, member.2.document))) := by
  have hnamed : (Json.documentMembers members).mapM
      (fun member => member.1.map fun key => (key, member.2)) =
        some (members.map fun member => (member.1, member.2.document)) := by
    rw [Json.documentMembers_eq_map]
    exact mapM_map_eq_map fun _ _ => rfl
  rw [Json.document, fields?, hnamed]
  rfl

@[simp] theorem text?_string (text : String) : (Json.string text).document.text? = some text := rfl

theorem listOf?_map {write : α → Json} {read : Document → Option α} {xs : List α}
    (h : ∀ x ∈ xs, read (write x).document = some x) :
    (Json.array (xs.map write)).document.listOf? read = some xs := by
  rw [Json.document, Json.documentItems_eq_map, List.map_map]
  exact mapM_map_eq_some h

theorem mapOf?_toJson {write : α → Json} {read : Document → Option α} {m : NameMap α}
    (h : ∀ entry ∈ m.entries, read (write entry.2).document = some entry.2) :
    (m.toJson write).document.mapOf? read = some m := by
  rw [NameMap.toJson, Json.document, Json.documentMembers_eq_map, List.map_map, mapOf?,
    mapM_map_eq_some]
  · exact congrArg some m.ofList_entries
  · intro entry hentry
    show (do return (entry.1, ← read (write entry.2).document)) = some entry
    rw [h entry hentry]
    rfl

end Document

variable {levels : Nat}

theorem Statement.ofDocument?_toJson {s : Statement} (h : s.toJson.depth ≤ levels) :
    ofDocument? levels s.toJson.document = some s := by
  obtain ⟨node, hnode⟩ := s.node?_toJson []
  have hread : s.toJson.document.nodeJson? levels = some s.toJson := by
    rw [Document.nodeJson?, Document.json?_document _ h]
    show s.toJson.node? [] >>= _ = _
    rw [hnode]
    rfl
  rw [ofDocument?, hread]
  exact s.ofJson?_toJson h

theorem Statement.listOfDocument?_listToJson {body : List Statement}
    (h : (Json.array (listToJson body)).depth ≤ levels) :
    listOfDocument? levels (Json.array (listToJson body)).document = some body := by
  rw [listToJson_eq_map] at h ⊢
  apply Document.listOf?_map
  intro s hs
  exact ofDocument?_toJson (Json.depth_array_le h _ (List.mem_map_of_mem hs))

theorem Datum.ofDocument?_json {d : Datum} (h : d.json.depth ≤ levels) :
    ofDocument? levels d.json.document = some d := by
  rw [ofDocument?, Document.json?_document _ h]
  exact congrArg some d.ofJson_json

theorem Input.ofDocument?_toJson {input : Input} (h : input.toJson.depth ≤ levels) :
    ofDocument? levels input.toJson.document = some input := by
  have hparts := Json.depth_object_le h
  simp only [List.forall_mem_cons] at hparts
  rw [ofDocument?, toJson, Document.fields?_object]
  simp [Datum.ofDocument?_json hparts.2.1]

theorem Function.ofDocument?_toJson {f : Function} (h : f.toJson.depth ≤ levels) :
    ofDocument? levels f.toJson.document = some f := by
  have hparts := Json.depth_object_le h
  simp only [List.forall_mem_cons] at hparts
  have hinputs : (Json.array (f.inputs.map Input.toJson)).document.listOf?
      (Input.ofDocument? (levels - 2)) = some f.inputs := by
    apply Document.listOf?_map
    intro input hinput
    exact Input.ofDocument?_toJson (Json.depth_array_le hparts.1 _ (List.mem_map_of_mem hinput))
  rw [ofDocument?, toJson, Document.fields?_object]
  simp [hinputs, Statement.listOfDocument?_listToJson hparts.2.1]

namespace Program

theorem ofDocument?_toJson {p : Program} (h : p.toJson.depth ≤ nestingLimit) :
    ofDocument? p.toJson.document = some p := by
  have hparts := Json.depth_object_le h
  have hfunctions : (p.functions.toJson Function.toJson).document.mapOf?
      (Function.ofDocument? (nestingLimit - 2)) = some p.functions := by
    apply Document.mapOf?_toJson
    intro entry hentry
    have hmap := hparts ("functions", _) (List.mem_append_right _ List.mem_cons_self)
    exact Function.ofDocument?_toJson
      (Json.depth_object_le hmap (entry.1, _) (List.mem_map_of_mem hentry))
  rw [ofDocument?, toJson, Document.fields?_object]
  by_cases hempty : p.globals.isEmpty = true
  · have hglobals : p.globals = NameSet.ofList [] := NameSet.ext_names (List.isEmpty_iff.mp hempty)
    simp [hempty, hfunctions, ← hglobals]
  · have hnames : (Json.array (p.globals.names.map Json.string)).document.listOf? Document.text? =
        some p.globals.names := Document.listOf?_map fun _ _ => rfl
    rw [← NameSet.toJson] at hnames
    simp [hempty, hfunctions, hnames, NameSet.ofList_names]

theorem ofSource_toJson {p : Program} (hversion : p.version = supportedVersion)
    (hdepth : p.toJson.depth ≤ nestingLimit) : ofSource (some p.toJson.document) = .ok p := by
  rw [ofSource, Option.bind_some, ofDocument?_toJson hdepth]
  exact if_pos hversion

/-- A program of the supported version whose value nests no deeper than the limit is read back from
its texts, as a text and as the bytes of one. -/
theorem ofBytes_printed (p : Program) (hversion : p.version = supportedVersion)
    (hdepth : p.toJson.depth ≤ nestingLimit) :
    ∀ text ∈ [p.toJson.compact, p.toJson.pretty],
      ofSource (Document.ofString? text) = .ok p ∧ ofBytes text.toUTF8 = .ok p := by
  have hread : ∀ text ∈ [p.toJson.compact, p.toJson.pretty],
      Document.ofString? text = some p.toJson.document := by
    simp [Document.ofString?_compact, Document.ofString?_pretty]
  intro text htext
  rw [ofBytes, Document.ofBytes?_toUTF8, hread text htext]
  exact ⟨ofSource_toJson hversion hdepth, ofSource_toJson hversion hdepth⟩

/-- Optional parts that are absent or `nothing`, all kinds of edits, and names, numbers and schemas
that are hard to write. -/
def awkward : Program where
  version := supportedVersion
  globals := .ofList ["users"]
  functions := .ofList [("gr\u00fc\u00df\n", {
    inputs := [⟨"who", .null⟩, ⟨"\"\\", .entry "minimum" (.double ⟨true, 1⟩)⟩]
    body := [
      .save "clerk" (.role (.entry "kind" (.string "Role")) (some .nothing)),
      .update (.saved "clerk") [.string "age"] (.push [.int (-0x8000000000000000), .bool true]),
      .update (.saved "clerk") [.string "age"] .deleteField,
      .update (.globalObject "users") [.saved "who"] (.set (.array [])),
      .choice [(.when (.bool true), [.ret none]), (.otherwise, [.ret (some .nothing)])]] })]

theorem ofBytes_printed_awkward :
    (awkward.version = supportedVersion ∧ awkward.toJson.depth ≤ nestingLimit) ∧
      ∀ text ∈ [awkward.toJson.compact, awkward.toJson.pretty],
        ofSource (Document.ofString? text) = .ok awkward ∧ ofBytes text.toUTF8 = .ok awkward :=
  ⟨⟨rfl, by decide⟩, ofBytes_printed awkward rfl (by decide)⟩

end Program

end StoredProcedure
