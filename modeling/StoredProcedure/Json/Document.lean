import StoredProcedure.Json.Basic
import StoredProcedure.Json.Token

/-!
JSON documents: the syntax tree of a JSON text, as it is written, with repeated members, numbers of
any size and any depth of nesting.

Parts of a document that are skipped only have to be well written. Parts that are read have to be
values: `Document.json?` asks that arrays and objects nest no deeper than a limit, that numbers are
in range and that strings are texts.
-/

namespace StoredProcedure

inductive Document where
  | null
  | bool (value : Bool)
  | number (value : Numeral)
  | string (text : Option String)
  | array (items : List Document)
  | object (members : List (Option String × Document))
deriving Inhabited

namespace Document

/-- An array or an object around the value that is being read; what precedes that value stands last
first. -/
inductive Frame where
  | array (items : List Document)
  | object (members : List (Option String × Document)) (key : Option String)

/-- What has been read last inside the innermost array or object, which is not on the stack then. -/
inductive Place where
  | value
  | openedArray
  | openedObject
  | item (items : List Document)
  | member (members : List (Option String × Document))
  | memberComma (members : List (Option String × Document))
  | key (members : List (Option String × Document)) (key : Option String)
  | complete (document : Document)

/-- A document that is being read. -/
structure Reading where
  stack : List Frame := []
  place : Place := .value

namespace Reading

/-- A value has been read. -/
def close (document : Document) : List Frame → Reading
  | [] => ⟨[], .complete document⟩
  | .array items :: stack => ⟨stack, .item (document :: items)⟩
  | .object members key :: stack => ⟨stack, .member ((key, document) :: members)⟩

/-- A token where a value starts. -/
def startValue? (stack : List Frame) : Token → Option Reading
  | .null => some (close .null stack)
  | .bool value => some (close (.bool value) stack)
  | .number value => some (close (.number value) stack)
  | .string text => some (close (.string text) stack)
  | .openBracket => some ⟨stack, .openedArray⟩
  | .openBrace => some ⟨stack, .openedObject⟩
  | .closeBracket | .closeBrace | .colon | .comma => none

def step? (p : Reading) (token : Token) : Option Reading :=
  match p.place, token with
  | .value, token => startValue? p.stack token
  | .openedArray, .closeBracket => some (close (.array []) p.stack)
  | .openedArray, token => startValue? (.array [] :: p.stack) token
  | .item items, .comma => some ⟨.array items :: p.stack, .value⟩
  | .item items, .closeBracket => some (close (.array items.reverse) p.stack)
  | .openedObject, .closeBrace => some (close (.object []) p.stack)
  | .openedObject, .string key => some ⟨p.stack, .key [] key⟩
  | .key members key, .colon => some ⟨.object members key :: p.stack, .value⟩
  | .member members, .comma => some ⟨p.stack, .memberComma members⟩
  | .member members, .closeBrace => some (close (.object members.reverse) p.stack)
  | .memberComma members, .string key => some ⟨p.stack, .key members key⟩
  | _, _ => none

def document? (p : Reading) : Option Document :=
  match p.place with
  | .complete document => some document
  | _ => none

end Reading

/-- The document of a list of tokens. -/
def ofTokens? (tokens : List Token) : Option Document := do
  let p ← tokens.foldlM Reading.step? {}
  p.document?

def ofSymbols? (symbols : List Lexer.Symbol) : Option Document := do
  ofTokens? (← Lexer.tokens? symbols)

def ofString? (text : String) : Option Document :=
  ofSymbols? (text.toList.map some)

/-- The symbols of a sequence of bytes: a character where one is properly encoded, `none` for a byte
where none is. -/
def symbols (bytes : ByteArray) : List Lexer.Symbol :=
  go bytes.size 0
where
  go : Nat → Nat → List Lexer.Symbol
    | 0, _ => []
    | fuel + 1, pos =>
        if pos < bytes.size then
          match bytes.utf8DecodeChar? pos with
          | some c => some c :: go fuel (pos + c.utf8Size)
          | none => none :: go fuel (pos + 1)
        else []

/-- The document of a sequence of bytes. -/
def ofBytes? (bytes : ByteArray) : Option Document :=
  match String.fromUTF8? bytes with
  | some text => ofString? text
  | none => ofSymbols? (symbols bytes)

end Document

/-- The value of a number. Numbers written without point and exponent are integers if they fit a
64-bit word, except that minus zero is a double like all other numbers. A number beyond the largest
double has no value. -/
def Numeral.json? (n : Numeral) : Option Json :=
  let value : Int := if n.negative then -n.digits else n.digits
  if h : n.integral = true ∧ ¬ (n.negative = true ∧ n.digits = 0) ∧
      -0x8000000000000000 ≤ value ∧ value < 0x10000000000000000 then
    some (.int ⟨value, h.2.2.1, h.2.2.2⟩)
  else
    (Double.ofDecimal? n.negative n.digits n.exponent).map .double

namespace Document

mutual
/-- The value of a document whose arrays and objects nest at most `limit` deep. -/
def json? : Document → (limit : Nat) → Option Json
  | .null, _ => some .null
  | .bool value, _ => some (.bool value)
  | .number value, _ => value.json?
  | .string text, _ => text.map .string
  | .array items, limit + 1 => (jsonItems? items limit).map .array
  | .object members, limit + 1 => (jsonMembers? members limit).map .object
  | .array _, 0 | .object _, 0 => none
termination_by structural document => document

def jsonItems? : List Document → (limit : Nat) → Option (List Json)
  | [], _ => some []
  | item :: rest, limit => do
      let value ← item.json? limit
      let values ← jsonItems? rest limit
      return value :: values
termination_by structural items => items

def jsonMembers? : List (Option String × Document) → (limit : Nat) → Option (List (String × Json))
  | [], _ => some []
  | (key, document) :: rest, limit => do
      let key ← key
      let value ← document.json? limit
      let values ← jsonMembers? rest limit
      return (key, value) :: values
termination_by structural members => members
end

end Document

end StoredProcedure
