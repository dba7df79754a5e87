/-!
The tokens of a JSON text and the lexer that reads them, one symbol at a time.

A text is a list of symbols. A symbol is a character, or `none` for a byte that belongs to no UTF-8
encoded character. Such bytes, and escapes that name half of a surrogate pair, may stand in a string
only if nobody reads the string: the token of a string therefore carries `none` when its content is
no text.
-/

namespace StoredProcedure

/-- A number as it is written: `digits * 10 ^ exponent`, and whether neither point nor exponent was
used to write it. -/
structure Numeral where
  negative : Bool
  digits : Nat
  exponent : Int
  integral : Bool
deriving DecidableEq

inductive Token where
  | openBrace
  | closeBrace
  | openBracket
  | closeBracket
  | colon
  | comma
  | null
  | bool (value : Bool)
  | number (value : Numeral)
  | string (text : Option String)
deriving DecidableEq

namespace Lexer

/-- A character, or a byte that is no part of one. -/
abbrev Symbol := Option Char

/-- What of a number has been read last. -/
inductive NumberPart where
  | minus
  | zero
  | whole
  | point
  | fraction
  | mark
  | markSign
  | power
deriving DecidableEq

/-- A number that is being read. -/
structure NumberScan where
  part : NumberPart
  negative : Bool
  digits : Nat := 0
  places : Nat := 0
  powerNegative : Bool := false
  power : Nat := 0

/-- The value of a decimal digit. -/
def digit? (c : Char) : Option Nat :=
  if '0' ≤ c ∧ c ≤ '9' then some (c.toNat - '0'.toNat) else none

/-- The value of a hexadecimal digit. -/
def hexDigit? (c : Char) : Option Nat :=
  if '0' ≤ c ∧ c ≤ '9' then some (c.toNat - '0'.toNat)
  else if 'a' ≤ c ∧ c ≤ 'f' then some (c.toNat - 'a'.toNat + 10)
  else if 'A' ≤ c ∧ c ≤ 'F' then some (c.toNat - 'A'.toNat + 10)
  else none

namespace NumberScan

/-- The number read so far, if it may end here. -/
def numeral? (scan : NumberScan) : Option Numeral :=
  let power : Int := if scan.powerNegative then -scan.power else scan.power
  match scan.part with
  | .zero | .whole => some ⟨scan.negative, scan.digits, 0, true⟩
  | .fraction | .power => some ⟨scan.negative, scan.digits, power - scan.places, false⟩
  | .minus | .point | .mark | .markSign => none

/-- The scan with one more symbol, if the symbol continues the number. -/
def extend? (scan : NumberScan) (c : Char) : Option NumberScan :=
  match scan.part, digit? c with
  | .minus, some 0 => some { scan with part := .zero }
  | .minus, some d => some { scan with part := .whole, digits := d }
  | .whole, some d => some { scan with digits := scan.digits * 10 + d }
  | .point, some d | .fraction, some d =>
      some { scan with
        part := .fraction, digits := scan.digits * 10 + d, places := scan.places + 1 }
  | .mark, some d | .markSign, some d | .power, some d =>
      some { scan with part := .power, power := scan.power * 10 + d }
  | .zero, none | .whole, none =>
      if c = '.' then some { scan with part := .point }
      else if c = 'e' ∨ c = 'E' then some { scan with part := .mark }
      else none
  | .fraction, none =>
      if c = 'e' ∨ c = 'E' then some { scan with part := .mark } else none
  | .mark, none =>
      if c = '+' then some { scan with part := .markSign }
      else if c = '-' then some { scan with part := .markSign, powerNegative := true }
      else none
  | _, _ => none

end NumberScan

/-- Where in a string the lexer stands. -/
inductive TextPart where
  | plain
  | escape
  | code (missing value : Nat)
deriving DecidableEq

/-- A string that is being read: its characters so far, last first, whether they are all its
content, and the first half of a surrogate pair whose second half has to follow. -/
structure TextScan where
  part : TextPart := .plain
  chars : List Char := []
  sound : Bool := true
  half : Option Nat := none

namespace TextScan

def push (scan : TextScan) (c : Char) : TextScan :=
  { part := .plain, chars := c :: scan.chars, sound := scan.sound && scan.half.isNone, half := none }

/-- A string with a part that is no text. -/
def spoil (scan : TextScan) : TextScan :=
  { scan with part := .plain, sound := false, half := none }

/-- Adds the code unit of an escape. Two halves of a surrogate pair make one character. -/
def pushCode (scan : TextScan) (code : Nat) : TextScan :=
  if 0xD800 ≤ code ∧ code < 0xDC00 then
    { scan with part := .plain, sound := scan.sound && scan.half.isNone, half := some code }
  else if 0xDC00 ≤ code ∧ code < 0xE000 then
    match scan.half with
    | some first =>
        { scan with
          part := .plain
          chars := Char.ofNat (0x10000 + (first - 0xD800) * 0x400 + (code - 0xDC00)) :: scan.chars
          half := none }
    | none => scan.spoil
  else scan.push (Char.ofNat code)

/-- The content, unless a part of it is no text. -/
def text? (scan : TextScan) : Option String :=
  if scan.sound && scan.half.isNone then some (String.ofList scan.chars.reverse) else none

/-- The character that a one-letter escape stands for. -/
def simpleEscape? (c : Char) : Option Char :=
  match c with
  | '"' => some '"'
  | '\\' => some '\\'
  | '/' => some '/'
  | 'b' => some '\x08'
  | 'f' => some '\x0c'
  | 'n' => some '\n'
  | 'r' => some '\r'
  | 't' => some '\t'
  | _ => none

/-- The scan with one more symbol other than a closing quote. Control characters are refused. -/
def extend? (scan : TextScan) (symbol : Symbol) : Option TextScan :=
  match scan.part, symbol with
  | .plain, some c =>
      if c = '\\' then some { scan with part := .escape }
      else if c.toNat < 0x20 then none
      else some (scan.push c)
  | .plain, none => some scan.spoil
  | .escape, some c =>
      if c = 'u' then some { scan with part := .code 4 0 }
      else (simpleEscape? c).map scan.push
  | .code missing value, some c => do
      let d ← hexDigit? c
      let value := value * 16 + d
      if missing ≤ 1 then return scan.pushCode value
      else return { scan with part := .code (missing - 1) value }
  | .escape, none | .code _ _, none => none

end TextScan

/-- Between two tokens, or inside a word, a number or a string. -/
inductive State where
  | between
  | word (rest : List Char) (token : Token)
  | number (scan : NumberScan)
  | text (scan : TextScan)

/-- Blank, tabulator, line feed and carriage return may stand between tokens. -/
def isBlank (c : Char) : Bool :=
  c = ' ' ∨ c = '\n' ∨ c = '\t' ∨ c = '\r'

/-- The symbol that a token may start with: the tokens it completes, and where the lexer is then. -/
def start? (c : Char) : Option (List Token × State) :=
  match c with
  | '{' => some ([.openBrace], .between)
  | '}' => some ([.closeBrace], .between)
  | '[' => some ([.openBracket], .between)
  | ']' => some ([.closeBracket], .between)
  | ':' => some ([.colon], .between)
  | ',' => some ([.comma], .between)
  | '"' => some ([], .text {})
  | 'n' => some ([], .word ['u', 'l', 'l'] .null)
  | 't' => some ([], .word ['r', 'u', 'e'] (.bool true))
  | 'f' => some ([], .word ['a', 'l', 's', 'e'] (.bool false))
  | '-' => some ([], .number { part := .minus, negative := true })
  | c =>
      if isBlank c then some ([], .between)
      else match digit? c with
        | some 0 => some ([], .number { part := .zero, negative := false })
        | some d => some ([], .number { part := .whole, negative := false, digits := d })
        | none => none

/-- One symbol: the tokens it completes, and where the lexer is then. A number ends at the first
symbol that does not continue it, and that symbol is read again as the start of a token. -/
def step? : State → Symbol → Option (List Token × State)
  | .between, some c => start? c
  | .word (expected :: rest) token, some c =>
      if c ≠ expected then none
      else if rest.isEmpty then some ([token], .between)
      else some ([], .word rest token)
  | .number scan, some c =>
      match scan.extend? c with
      | some scan => some ([], .number scan)
      | none => do
          let value ← scan.numeral?
          let (tokens, state) ← start? c
          return (.number value :: tokens, state)
  | .text scan, symbol =>
      if scan.part = .plain ∧ symbol = some '"' then some ([.string scan.text?], .between)
      else (scan.extend? symbol).map fun scan => ([], .text scan)
  | _, _ => none

/-- The tokens that the end of the text completes, if it may end here. -/
def finish? : State → Option (List Token)
  | .between => some []
  | .number scan => scan.numeral?.map fun value => [.number value]
  | .word _ _ | .text _ => none

/-- The lexer while it reads: its state and the tokens so far, last first. -/
structure Run where
  state : State := .between
  tokens : List Token := []

def Run.step? (run : Run) (symbol : Symbol) : Option Run := do
  let (tokens, state) ← Lexer.step? run.state symbol
  return ⟨state, tokens.reverse ++ run.tokens⟩

/-- The tokens of a text. -/
def tokens? (symbols : List Symbol) : Option (List Token) := do
  let run ← symbols.foldlM Run.step? {}
  let last ← finish? run.state
  return (last.reverse ++ run.tokens).reverse

end Lexer

end StoredProcedure
