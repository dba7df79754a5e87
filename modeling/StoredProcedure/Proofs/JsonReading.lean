import StoredProcedure.Proofs.JsonNumber

namespace StoredProcedure

namespace Document

mutual
/-- The tokens of a document. -/
def tokens : Document → List Token
  | .null => [.null]
  | .bool value => [.bool value]
  | .number value => [.number value]
  | .string text => [.string text]
  | .array items => .openBracket :: tokensItems items ++ [.closeBracket]
  | .object members => .openBrace :: tokensMembers members ++ [.closeBrace]
termination_by structural d => d

def tokensItems : List Document → List Token
  | [] => []
  | [item] => item.tokens
  | item :: next :: rest => item.tokens ++ .comma :: tokensItems (next :: rest)
termination_by structural items => items

def tokensMembers : List (Option String × Document) → List Token
  | [] => []
  | [(key, value)] => .string key :: .colon :: value.tokens
  | (key, value) :: next :: rest =>
      .string key :: .colon :: value.tokens ++ .comma :: tokensMembers (next :: rest)
termination_by structural members => members
end

end Document

namespace Json

mutual
/-- The document of a value. -/
def document : Json → Document
  | .null => .null
  | .bool value => .bool value
  | .int value => .number value.numeral
  | .double value => .number (value.shortest.numeral value.negative)
  | .string value => .string (some value)
  | .array items => .array (documentItems items)
  | .object members => .object (documentMembers members)
termination_by structural j => j

def documentItems : List Json → List Document
  | [] => []
  | item :: rest => item.document :: documentItems rest
termination_by structural items => items

def documentMembers : List (String × Json) → List (Option String × Document)
  | [] => []
  | (key, value) :: rest => (some key, value.document) :: documentMembers rest
termination_by structural members => members
end

end Json

namespace Lexer

theorem separates_comma : Separates ',' [.comma] := ⟨rfl, rfl, by decide, by decide⟩

theorem separates_closeBracket : Separates ']' [.closeBracket] := ⟨rfl, rfl, by decide, by decide⟩

theorem separates_closeBrace : Separates '}' [.closeBrace] := ⟨rfl, rfl, by decide, by decide⟩

theorem separates_lineBreak : Separates '\n' [] := ⟨rfl, rfl, by decide, by decide⟩

theorem scans_blanks (n : Nat) : Scans .between (List.replicate n ' ') [] .between := by
  induction n with
  | zero => exact .nil
  | succ n ih =>
      rw [List.replicate_succ]
      exact .silent rfl ih

namespace Spells

variable {cs more : List Char} {tokens rest : List Token}

theorem bracketed {first last : Char} {opening closing : Token} (h : Spells cs tokens)
    (hfirst : step? .between (some first) = some ([opening], .between))
    (hlast : Separates last [closing]) :
    Spells (first :: cs ++ [last]) (opening :: tokens ++ [closing]) := by
  apply of_scans
  exact (Scans.single hfirst).append (h.scans_separator hlast)

theorem listed (h : Spells cs tokens) (hmore : Spells more rest) :
    Spells (cs ++ ',' :: more) (tokens ++ .comma :: rest) := by
  rw [List.append_cons cs, List.append_cons tokens]
  exact hmore.after (h.scans_separator separates_comma)

theorem named (key : String) (h : Spells cs tokens) :
    Spells (Json.quotedChars key ++ ':' :: cs) (.string (some key) :: .colon :: tokens) := by
  rw [List.append_cons]
  have hcolon : Scans .between [':'] [.colon] .between := .single rfl
  exact h.after ((scans_quoted key).append hcolon)

theorem blank (h : Spells cs tokens) : Spells (' ' :: cs) tokens :=
  h.after (scans_blanks 1)

theorem indented (h : Spells cs tokens) (level : Nat) : Spells (Json.newLine level ++ cs) tokens :=
  h.after (.silent rfl (scans_blanks (2 * level)))

theorem broken (h : Spells cs tokens) (level : Nat) :
    Spells (cs ++ Json.newLine level) tokens := by
  have hscan := (h.scans_separator separates_lineBreak).append (scans_blanks (2 * level))
  rw [List.append_assoc, List.append_nil, List.append_nil] at hscan
  exact of_scans hscan

end Spells

mutual
theorem spells_compactChars : (j : Json) → Spells j.compactChars j.document.tokens
  | .null => .of_scans scans_null
  | .bool true => .of_scans scans_true
  | .bool false => .of_scans scans_false
  | .int value => spells_intChars value
  | .double value => spells_doubleChars value
  | .string value => .of_scans (scans_quoted value)
  | .array items => (spells_compactItems items).bracketed rfl separates_closeBracket
  | .object members => (spells_compactMembers members).bracketed rfl separates_closeBrace
termination_by structural j => j

theorem spells_compactItems : (items : List Json) →
    Spells (Json.compactItems items) (Document.tokensItems (Json.documentItems items))
  | [] => .nil
  | [item] => spells_compactChars item
  | item :: next :: rest => (spells_compactChars item).listed (spells_compactItems (next :: rest))
termination_by structural items => items

theorem spells_compactMembers : (members : List (String × Json)) →
    Spells (Json.compactMembers members) (Document.tokensMembers (Json.documentMembers members))
  | [] => .nil
  | [(key, value)] => .named key (spells_compactChars value)
  | (key, value) :: next :: rest => by
      have hmember := (spells_compactChars value).named key
      exact hmember.listed (spells_compactMembers (next :: rest))
termination_by structural members => members
end

mutual
theorem spells_prettyChars : (level : Nat) → (j : Json) →
    Spells (j.prettyChars level) j.document.tokens
  | level, .array (item :: rest) =>
      ((spells_prettyItems (level + 1) (item :: rest)).broken level).bracketed rfl
        separates_closeBracket
  | level, .object (member :: rest) =>
      ((spells_prettyMembers (level + 1) (member :: rest)).broken level).bracketed rfl
        separates_closeBrace
  | _, .null => spells_compactChars .null
  | _, .bool value => spells_compactChars (.bool value)
  | _, .int value => spells_compactChars (.int value)
  | _, .double value => spells_compactChars (.double value)
  | _, .string value => spells_compactChars (.string value)
  | _, .array [] => spells_compactChars (.array [])
  | _, .object [] => spells_compactChars (.object [])
termination_by structural _ j => j

theorem spells_prettyItems : (level : Nat) → (items : List Json) →
    Spells (Json.prettyItems level items) (Document.tokensItems (Json.documentItems items))
  | _, [] => .nil
  | level, [item] => (spells_prettyChars level item).indented level
  | level, item :: next :: rest => by
      have hitem := (spells_prettyChars level item).indented level
      exact hitem.listed (spells_prettyItems level (next :: rest))
termination_by structural _ items => items

theorem spells_prettyMembers : (level : Nat) → (members : List (String × Json)) →
    Spells (Json.prettyMembers level members)
      (Document.tokensMembers (Json.documentMembers members))
  | _, [] => .nil
  | level, [(key, value)] => by
      have hmember := ((spells_prettyChars level value).blank.named key).indented level
      rwa [← List.append_assoc] at hmember
  | level, (key, value) :: next :: rest => by
      have hmember := ((spells_prettyChars level value).blank.named key).indented level
      rw [← List.append_assoc] at hmember
      exact hmember.listed (spells_prettyMembers level (next :: rest))
termination_by structural _ members => members
end

end Lexer

namespace Document

open Reading

/-- No value starts with the end of an array, so the first item is read like those after it. -/
theorem foldlM_openedArray (item : Document) (rest : List Document) (more : List Token)
    (stack : List Frame) :
    (tokensItems (item :: rest) ++ more).foldlM step? ⟨stack, .openedArray⟩ =
      (tokensItems (item :: rest) ++ more).foldlM step? ⟨.array [] :: stack, .value⟩ := by
  cases rest with
  | nil => cases item <;> rfl
  | cons next rest => cases item <;> rfl

mutual
/-- The tokens of a document are read as this document, whatever surrounds it. -/
theorem foldlM_tokens : (d : Document) → (stack : List Frame) →
    d.tokens.foldlM step? ⟨stack, .value⟩ = some (close d stack)
  | .null, _ | .bool _, _ | .number _, _ | .string _, _ => rfl
  | .array [], _ | .object [], _ => rfl
  | .array (item :: rest), stack =>
      (foldlM_openedArray item rest [.closeBracket] stack).trans
        (foldlM_tokensItems (item :: rest) (List.cons_ne_nil _ _) [] stack)
  | .object (member :: rest), stack =>
      foldlM_tokensMembers (member :: rest) (List.cons_ne_nil _ _) [] stack
        ⟨stack, .openedObject⟩ fun _ => rfl
termination_by structural d => d

theorem foldlM_tokensItems : (items : List Document) → items ≠ [] → (before : List Document) →
    (stack : List Frame) →
    (tokensItems items ++ [Token.closeBracket]).foldlM step?
        ⟨.array before :: stack, .value⟩ =
      some (close (.array (before.reverse ++ items)) stack)
  | [], hne, _, _ => absurd rfl hne
  | [item], _, before, stack => by
      rw [tokensItems, List.foldlM_append, foldlM_tokens item]
      show some (close (.array (item :: before).reverse) stack) = _
      rw [List.reverse_cons]
  | item :: next :: rest, _, before, stack => by
      have hrest := foldlM_tokensItems (next :: rest) (List.cons_ne_nil _ _)
        (item :: before) stack
      rw [List.reverse_cons, List.append_assoc] at hrest
      rw [tokensItems, List.append_assoc, List.foldlM_append, foldlM_tokens item]
      exact hrest
termination_by structural items => items

theorem foldlM_tokensMembers : (members : List (Option String × Document)) → members ≠ [] →
    (before : List (Option String × Document)) → (stack : List Frame) → (p : Reading) →
    (∀ key, step? p (.string key) = some ⟨stack, .key before key⟩) →
    (tokensMembers members ++ [Token.closeBrace]).foldlM step? p =
      some (close (.object (before.reverse ++ members)) stack)
  | [], hne, _, _, _, _ => absurd rfl hne
  | [(key, value)], _, before, stack, p, hkey => by
      rw [tokensMembers, List.cons_append, List.foldlM_cons, hkey]
      show (value.tokens ++ [Token.closeBrace]).foldlM step?
        ⟨.object before key :: stack, .value⟩ = _
      rw [List.foldlM_append, foldlM_tokens value]
      show some (close (.object ((key, value) :: before).reverse) stack) = _
      rw [List.reverse_cons]
  | (key, value) :: next :: rest, _, before, stack, p, hkey => by
      have hrest := foldlM_tokensMembers (next :: rest) (List.cons_ne_nil _ _)
        ((key, value) :: before) stack
        ⟨stack, .memberComma ((key, value) :: before)⟩ fun _ => rfl
      rw [List.reverse_cons, List.append_assoc] at hrest
      rw [tokensMembers, List.cons_append, List.cons_append, List.foldlM_cons, hkey]
      show (value.tokens ++ Token.comma :: tokensMembers (next :: rest) ++
        [Token.closeBrace]).foldlM step? ⟨.object before key :: stack, .value⟩ = _
      rw [List.append_assoc, List.foldlM_append, foldlM_tokens value]
      exact hrest
termination_by structural members => members
end

theorem ofTokens?_tokens (d : Document) : ofTokens? d.tokens = some d := by
  rw [ofTokens?, foldlM_tokens d []]
  rfl

theorem ofString?_of_spells {cs : List Char} {d : Document} (h : Lexer.Spells cs d.tokens) :
    ofString? (String.ofList cs) = some d := by
  rw [ofString?, String.toList_ofList, ofSymbols?, Lexer.tokens?_of_spells h]
  exact ofTokens?_tokens d

theorem ofString?_compact (j : Json) : ofString? j.compact = some j.document :=
  ofString?_of_spells (Lexer.spells_compactChars j)

theorem ofString?_pretty (j : Json) : ofString? j.pretty = some j.document :=
  ofString?_of_spells (Lexer.spells_prettyChars 0 j)

theorem ofBytes?_toUTF8 (text : String) : ofBytes? text.toUTF8 = ofString? text := by
  have hvalid : text.toUTF8.IsValidUTF8 := text.isValidUTF8
  rw [ofBytes?, String.fromUTF8?, dif_pos hvalid]
  rfl

mutual
/-- The document of a value has this value if the limit is not below the depth. -/
theorem json?_document : (j : Json) → {limit : Nat} → j.depth ≤ limit →
    j.document.json? limit = some j
  | .null, _, _ | .bool _, _, _ | .string _, _, _ => rfl
  | .int value, _, _ => value.json?_numeral
  | .double value, _, _ => value.json?_numeral
  | .array items, limit, h => by
      obtain _ | limit := limit
      · exact absurd h (Nat.not_succ_le_zero _)
      · exact congrArg (Option.map Json.array)
          (jsonItems?_documentItems items (Nat.le_of_succ_le_succ h))
  | .object members, limit, h => by
      obtain _ | limit := limit
      · exact absurd h (Nat.not_succ_le_zero _)
      · exact congrArg (Option.map Json.object)
          (jsonMembers?_documentMembers members (Nat.le_of_succ_le_succ h))
termination_by structural j => j

theorem jsonItems?_documentItems : (items : List Json) → {limit : Nat} →
    Json.depthItems items ≤ limit → jsonItems? (Json.documentItems items) limit = some items
  | [], _, _ => rfl
  | item :: rest, limit, h => by
      obtain ⟨hitem, hrest⟩ := Nat.max_le.mp h
      rw [Json.documentItems, jsonItems?, json?_document item hitem,
        jsonItems?_documentItems rest hrest]
      rfl
termination_by structural items => items

theorem jsonMembers?_documentMembers : (members : List (String × Json)) → {limit : Nat} →
    Json.depthMembers members ≤ limit →
      jsonMembers? (Json.documentMembers members) limit = some members
  | [], _, _ => rfl
  | (key, value) :: rest, limit, h => by
      obtain ⟨hvalue, hrest⟩ := Nat.max_le.mp h
      rw [Json.documentMembers, jsonMembers?, json?_document value hvalue,
        jsonMembers?_documentMembers rest hrest]
      rfl
termination_by structural members => members
end

end Document

end StoredProcedure
