import StoredProcedure.Proofs.JsonReading
import StoredProcedure.Proofs.RespelledDocument
import StoredProcedure.Syntax.Source

namespace StoredProcedure

namespace Document

variable {α : Type}

theorem fields?_eq_members? (members : List (Option String × Document)) :
    (object members).fields? = (members? some members).map .named := by
  have hmember : (fun member : Option String × Document =>
      member.1.map fun key => (key, member.2)) = member? some := by
    funext member
    exact Option.map_eq_bind ..
  rw [fields?, hmember]
  exact (Option.map_eq_bind ..).symm

theorem fields?_agree {R : Role → Document → Document → Prop} {table : List (String × Role)}
    {members members' : List (Option String × Document)}
    (h : Option.Rel (Fields.AgreeNamed R table) (members? some members) (members? some members')) :
    Option.Rel (Fields.Agree R table) (object members).fields? (object members').fields? := by
  rw [fields?_eq_members?, fields?_eq_members?]
  apply rel_map
  apply rel_mono h
  exact fun _ _ _ _ hfields => hfields.agree

theorem mapOf?_eq_members? (read : Document → Option α)
    (members : List (Option String × Document)) :
    (object members).mapOf? read = (members? read members).map NameMap.ofList :=
  (Option.map_eq_bind ..).symm

theorem listOf?_respells {role : Role} {levels : Nat} {d d' : Document}
    {read : Document → Option α} (h : Respells .readable (.listOf role) levels d d')
    (hread : ∀ {x x'}, Respells .readable role (levels - 1) x x' → read x = read x') :
    d.listOf? read = d'.listOf? read := by
  cases h with
  | permute hrole _ | insert hrole _ => cases hrole
  | rearrange hrole _ _ => simp at hrole
  | member h => exact absurd rfl h.ne_plain
  | item h =>
      rw [listOf?, listOf?, List.mapM_append, List.mapM_append, List.mapM_cons, List.mapM_cons,
        hread h]

end Document

namespace Respells

/-- A part of a document and what stands for it in another spelling. -/
def Part (levels : Nat) (role : Role) (d d' : Document) : Prop :=
  d = d' ∨ Respells .readable role (levels - 1) d d'

variable {role : Role} {levels : Nat} {d d' : Document}

theorem part_refl (role : Role) (d : Document) : Part levels role d d :=
  .inl rfl

theorem Part.eq (h : Part levels .plain d d') : d = d' := by
  obtain rfl | h := h
  · rfl
  · exact absurd rfl h.ne_plain

theorem Part.eq_of_rel {x x' : Option Document} (h : Option.Rel (Part levels .plain) x x') :
    x = x' :=
  eq_of_rel_eq (rel_mono h fun _ _ _ _ => Part.eq)

theorem Part.congr {α : Type} {read : Document → α} (h : Part levels role d d')
    (hread : Respells .readable role (levels - 1) d d' → read d = read d') : read d = read d' := by
  obtain rfl | h := h
  · rfl
  · exact hread h

theorem fields_agree (h : Respells .readable role levels d d') (hrole : role.isOuter = true) :
    Option.Rel (Fields.Agree (Part levels) (role.fields fun _ => none)) d.fields? d'.fields? := by
  have hrecord : role.isRecord = true := by simp [Role.isRecord, hrole]
  have hdeclared : ∀ kind?, role.declared kind? = role.fields fun _ => none := by
    intro kind?
    cases role with
    | program | function | input => rfl
    | _ => cases hrole
  cases h with
  | permute _ h =>
      apply Document.fields?_agree
      exact Document.members?_permute part_refl h
  | rearrange hother _ _ => obtain rfl | rfl := hother <;> cases hrole
  | insert _ hmember =>
      obtain ⟨hname, htext, -⟩ := hmember
      rw [hdeclared] at hname
      obtain ⟨entry, hentry⟩ := Option.isSome_iff_exists.mp
        (Document.isSome_member?.mpr ⟨htext, Option.isSome_some⟩)
      apply Document.fields?_agree
      exact Document.members?_insert part_refl hentry hname
  | @member _ _ before after key d d' h =>
      have hpart : Option.Rel (Part levels _) (some d) (some d') := .some (.inr h)
      apply Document.fields?_agree
      apply Document.members?_replace part_refl hpart
      rintro field hfield rfl a a' hab
      rw [← hdeclared] at hfield
      rwa [Role.ofMember_of_mem hrecord hfield] at hab
  | item h =>
      refine .some ((Fields.agreeListed_replace part_refl (.inr h)).agree ?_)
      intro i field hfield
      rw [← hdeclared] at hfield
      exact Role.ofItem_of_getElem? hrecord hfield

end Respells

variable {levels : Nat} {d d' : Document}

theorem Datum.ofDocument?_respells (h : Respells .readable .schema levels d d') :
    ofDocument? levels d = ofDocument? levels d' := by
  apply eq_of_rel_eq
  apply rel_map
  exact rel_mono (h.agree rfl) fun _ _ _ _ => ofJson_agree

theorem Statement.ofDocument?_respells (h : Respells .readable .statement levels d d') :
    ofDocument? levels d = ofDocument? levels d' := by
  have hnode : Option.Rel Role.statement.Agree (d.nodeJson? levels) (d'.nodeJson? levels) := by
    rw [Document.nodeJson?, Document.nodeJson?]
    apply rel_bind (h.agree rfl)
    intro j j' hj
    have hnamed := hj.2
    cases hnode : j.node? [] <;> cases hnode' : j'.node? [] <;>
      simp only [hnode, hnode', Option.isSome_none, Option.isSome_some] at hnamed
    · exact .none
    · cases hnamed
    · cases hnamed
    · exact .some hj
  exact bind_eq_of_rel hnode fun _ _ hstatement => hstatement.1 levels

theorem Statement.listOfDocument?_respells
    (h : Respells .readable (.listOf .statement) levels d d') :
    listOfDocument? levels d = listOfDocument? levels d' :=
  Document.listOf?_respells h ofDocument?_respells

theorem Input.ofDocument?_respells (h : Respells .readable .input levels d d') :
    ofDocument? levels d = ofDocument? levels d' := by
  rw [ofDocument?, ofDocument?]
  apply bind_eq_of_rel (h.fields_agree rfl)
  intro fields fields' hfields
  apply bind_eq_of_rel hfields.all
  rintro _ _ ⟨hname, hschema, ⟨⟩⟩
  obtain rfl := Respells.Part.eq hname
  dsimp only
  rw [Respells.Part.congr hschema Datum.ofDocument?_respells]

theorem Function.ofDocument?_respells (h : Respells .readable .function levels d d') :
    ofDocument? levels d = ofDocument? levels d' := by
  rw [ofDocument?, ofDocument?]
  apply bind_eq_of_rel (h.fields_agree rfl)
  intro fields fields' hfields
  apply bind_eq_of_rel hfields
  rintro _ _ ⟨hinputs, ⟨hbody⟩ | _, ⟨⟩⟩
  · have hbody := Respells.Part.congr hbody Statement.listOfDocument?_respells
    obtain ⟨hinputs⟩ | _ := hinputs
    · have hinputs := Respells.Part.congr hinputs fun h =>
        Document.listOf?_respells h Input.ofDocument?_respells
      rw [Nat.sub_sub] at hinputs
      dsimp only
      rw [hinputs, hbody]
    · dsimp only
      rw [hbody]
  · rfl

theorem Function.mapOfDocument?_respells (h : Respells .readable .functions levels d d') :
    d.mapOf? (ofDocument? (levels - 1)) = d'.mapOf? (ofDocument? (levels - 1)) := by
  cases h with
  | permute hrole _ | insert hrole _ => cases hrole
  | rearrange _ h hnames =>
      rw [Document.mapOf?_eq_members?, Document.mapOf?_eq_members?]
      apply eq_of_rel_eq
      apply rel_map
      apply rel_mono (Document.members?_rearrange h hnames)
      exact fun _ _ _ _ => NameMap.ofList_eq_of_filter
  | member h =>
      have hfunction := ofDocument?_respells h
      rw [Document.mapOf?_eq_members?, Document.mapOf?_eq_members?, Document.members?,
        Document.members?, List.mapM_append, List.mapM_append, List.mapM_cons, List.mapM_cons,
        Document.member?, Document.member?, hfunction]
  | item h => rfl

namespace Document

/-- The tokens of a sequence of bytes. -/
def tokens? (bytes : ByteArray) : Option (List Token) :=
  match String.fromUTF8? bytes with
  | some text => Lexer.tokens? (text.toList.map some)
  | none => Lexer.tokens? (symbols bytes)

/-- The bytes are a text of the document, with whatever blanks between the tokens. -/
def SpelledBy (d : Document) (bytes : ByteArray) : Prop :=
  tokens? bytes = some d.tokens

theorem ofBytes?_of_spelledBy {bytes : ByteArray} (h : d.SpelledBy bytes) :
    ofBytes? bytes = some d := by
  have hbytes : ofBytes? bytes = (tokens? bytes).bind ofTokens? := by
    rw [ofBytes?, tokens?]
    cases String.fromUTF8? bytes <;> rfl
  rw [hbytes, h]
  exact ofTokens?_tokens d

theorem spelledBy_toUTF8 {text : String}
    (h : Lexer.tokens? (text.toList.map some) = some d.tokens) : d.SpelledBy text.toUTF8 := by
  have hvalid : text.toUTF8.IsValidUTF8 := text.isValidUTF8
  rw [SpelledBy, tokens?, String.fromUTF8?, dif_pos hvalid]
  exact h

theorem spelledBy_compact (j : Json) : j.document.SpelledBy j.compact.toUTF8 := by
  apply spelledBy_toUTF8
  rw [Json.compact, String.toList_ofList]
  exact Lexer.tokens?_of_spells (Lexer.spells_compactChars j)

end Document

namespace Program

theorem ofDocument?_respells (h : Respells .readable .program nestingLimit d d') :
    ofDocument? d = ofDocument? d' := by
  rw [ofDocument?, ofDocument?]
  apply bind_eq_of_rel (h.fields_agree rfl)
  intro fields fields' hfields
  apply bind_eq_of_rel hfields
  rintro _ _ ⟨hversion, hglobals, ⟨hfunctions⟩ | _, ⟨⟩⟩
  · obtain rfl := Respells.Part.eq_of_rel hversion
    obtain rfl := Respells.Part.eq_of_rel hglobals
    have hfunctions := Respells.Part.congr hfunctions Function.mapOfDocument?_respells
    rw [Nat.sub_sub] at hfunctions
    dsimp only
    rw [hfunctions]
  · rfl

theorem ofDocument?_respelled (h : d.Respelled .readable d') : ofDocument? d = ofDocument? d' := by
  induction h with
  | rel _ _ h => exact ofDocument?_respells h
  | refl => rfl
  | symm _ _ _ ih => exact ih.symm
  | trans _ _ _ _ _ ih ih' => exact ih.trans ih'

/-- Two texts of a program in different spellings are read as the same program or are refused
alike. -/
theorem ofBytes_respelled {a b : ByteArray} {d d' : Document} (ha : d.SpelledBy a)
    (hb : d'.SpelledBy b) (h : d.Respelled .readable d') : ofBytes a = ofBytes b := by
  rw [ofBytes, ofBytes, Document.ofBytes?_of_spelledBy ha, Document.ofBytes?_of_spelledBy hb,
    ofSource, ofSource, Option.bind_some, Option.bind_some, ofDocument?_respelled h]

/-- A program with one function, with places for other spellings. -/
def sheet (extra : List (String × Json)) (schema : Json) (statement : List (String × Json)) :
    Json :=
  .object (extra ++ [("functions", .object [("f", .object [
    ("input", .array [.object [("name", .string "n"), ("schema", schema)]]),
    ("computation", .array [.object statement])])])])

/-- The kind comes after the field it governs, members of the schema change places, and the program
and the statement have members that are not declared for them. -/
theorem ofBytes_respelled_sheet :
    let schema := Json.object [("type", .string "string"), ("title", .null)]
    let schema' := Json.object [("title", .null), ("type", .string "string")]
    let kind := ("kind", Json.string "Return")
    let value := ("value", Json.object [("kind", .string "Saved"), ("arg", .string "n")])
    let note := ("note", Json.array [.object []])
    let tidy := sheet [] schema [kind, value]
    let untidy := sheet [note] schema' [value, note, kind]
    (tidy.document.SpelledBy tidy.compact.toUTF8 ∧
      untidy.document.SpelledBy untidy.compact.toUTF8 ∧
        tidy.document.Respelled .readable untidy.document) ∧
      ofBytes tidy.compact.toUTF8 = ofBytes untidy.compact.toUTF8 ∧
        (ofBytes tidy.compact.toUTF8).isOk = true := by
  intro schema schema' kind value note tidy untidy
  have hschema : Respells .readable .program nestingLimit tidy.document
      (sheet [] schema' [kind, value]).document := by
    refine @Respells.member _ .program nestingLimit [] [] _ _ _ ?_
    refine @Respells.member _ .functions _ [] [] _ _ _ ?_
    refine @Respells.member _ .function _ [] _ _ _ _ ?_
    refine @Respells.item _ (.listOf .input) _ [] [] _ _ ?_
    refine @Respells.member _ .input _ [_] [] _ _ _ ?_
    refine .rearrange (.inr rfl) (.swap _ _ _) ?_
    intro name
    by_cases htype : "type" = name
    · subst htype
      rfl
    · simp [Json.documentMembers, List.filter_cons, htype]
  have hstatement : ∀ {members members'}, Respells .readable .statement (nestingLimit - 4)
      (Json.object members).document (Json.object members').document →
        Respells .readable .program nestingLimit (sheet [] schema' members).document
          (sheet [] schema' members').document := by
    intro members members' h
    refine @Respells.member _ .program nestingLimit [] [] _ _ _ ?_
    refine @Respells.member _ .functions _ [] [] _ _ _ ?_
    refine @Respells.member _ .function _ [_] [] _ _ _ ?_
    exact @Respells.item _ (.listOf .statement) _ [] [] _ _ h
  have hkind : Respells .readable .program nestingLimit (sheet [] schema' [kind, value]).document
      (sheet [] schema' [value, kind]).document := hstatement (.permute rfl (.swap _ _ _))
  have hinner : Respells .readable .program nestingLimit (sheet [] schema' [value, kind]).document
      (sheet [] schema' [value, note, kind]).document := by
    apply hstatement
    refine @Respells.insert _ .statement _ [_] [_] (some "note", _) rfl ⟨by decide, rfl, .inr ?_⟩
    rw [← Document.isSome_json?_iff]
    decide
  have houter : Respells .readable .program nestingLimit
      (sheet [] schema' [value, note, kind]).document untidy.document :=
    @Respells.insert _ .program _ [] [_] (some "note", _) rfl ⟨by decide, rfl, .inl rfl⟩
  have h : tidy.document.Respelled .readable untidy.document :=
    .trans _ _ _ (.rel _ _ hschema) (.trans _ _ _ (.rel _ _ hkind)
      (.trans _ _ _ (.rel _ _ hinner) (.rel _ _ houter)))
  have htidy := Document.spelledBy_compact tidy
  have huntidy := Document.spelledBy_compact untidy
  have hok : (ofBytes tidy.compact.toUTF8).isOk = true := by
    rw [ofBytes, Document.ofBytes?_of_spelledBy htidy]
    decide
  exact ⟨⟨htidy, huntidy, h⟩, ofBytes_respelled htidy huntidy h, hok⟩

/-- A program of one statement that does nothing, with other members added to the statement. -/
def idle (extra : List (Option String × Document)) : Document :=
  .object [(some "functions", .object [(some "f", .object [(some "computation",
    .array [.object ((some "kind", .string (some "Noop")) :: extra)])])])]

def idleText (extra : String) : String :=
  "\x7b\"functions\":\x7b\"f\":\x7b\"computation\":[\x7b\"kind\":\"Noop\"" ++ extra ++
    "\x7d]\x7d\x7d\x7d"

/-- Not every member that is not declared may be added. A statement is refused if the value of the
member is half of a surrogate pair. An operation of the kind with the number 0 is a boolean to be
set, and with `values` added it is a push. -/
theorem not_ofBytes_respelled_undeclared :
    (¬ ∀ (a b : ByteArray) (d d' : Document), d.SpelledBy a → d'.SpelledBy b →
      d.Respelled .undeclared d' → ofBytes a = ofBytes b) ∧
    ∀ levels, Edit.ofJson? (levels + 1)
        (.object [("kind", .int (.ofCount 0)), ("value", .bool true)]) =
          some (.set (.bool true)) ∧
      Edit.ofJson? (levels + 1)
        (.object [("kind", .int (.ofCount 0)), ("value", .bool true), ("values", .array [])]) =
          some (.push []) := by
  refine ⟨fun h => ?_, fun levels => ⟨rfl, rfl⟩⟩
  have hplain : (idle []).SpelledBy (idleText "").toUTF8 := Document.spelledBy_toUTF8 rfl
  have hadded : (idle [(some "x", .string none)]).SpelledBy
      (idleText ",\"x\":\"\\ud800\"").toUTF8 := Document.spelledBy_toUTF8 rfl
  have hrespells : Respells .undeclared .program nestingLimit (idle [])
      (idle [(some "x", .string none)]) := by
    refine @Respells.member _ .program nestingLimit [] [] _ _ _ ?_
    refine @Respells.member _ .functions _ [] [] _ _ _ ?_
    refine @Respells.member _ .function _ [] [] _ _ _ ?_
    refine @Respells.item _ (.listOf .statement) _ [] [] _ _ ?_
    exact @Respells.insert _ .statement _ [_] [] _ rfl ⟨by decide, .string⟩
  have heq := h _ _ _ _ hplain hadded (.rel _ _ hrespells)
  rw [ofBytes, ofBytes, Document.ofBytes?_of_spelledBy hplain,
    Document.ofBytes?_of_spelledBy hadded] at heq
  have hok := congrArg Except.isOk heq
  cases hok

end Program

end StoredProcedure
