import StoredProcedure.Double.Shortest
import StoredProcedure.Json.Basic

namespace StoredProcedure

/-- How doubles are written: positionally while the exponent of the leading digit is between these
two, with an exponent otherwise. -/
structure DoubleLayout where
  leastPositional : Int
  greatestPositional : Int

namespace Json

/-- Doubles from `0.00001` up to sixteen digits before the point are written positionally. -/
def doubleLayout : DoubleLayout := ⟨-5, 15⟩

def hexDigit (n : Nat) : Char :=
  (Nat.toDigits 16 (n % 16)).headD '0'

/-- A character inside a string: quote, backslash and control characters are escaped. -/
def escape (c : Char) : List Char :=
  match c with
  | '"' => ['\\', '"']
  | '\\' => ['\\', '\\']
  | '\x08' => ['\\', 'b']
  | '\x0c' => ['\\', 'f']
  | '\n' => ['\\', 'n']
  | '\r' => ['\\', 'r']
  | '\t' => ['\\', 't']
  | c =>
      if c.toNat < 0x20 then
        ['\\', 'u', '0', '0', hexDigit (c.toNat / 16), hexDigit c.toNat]
      else [c]

def quotedChars (text : String) : List Char :=
  '"' :: text.toList.flatMap escape ++ ['"']

def digitChars (n : Nat) : List Char :=
  Nat.toDigits 10 n

def intChars (n : Int) : List Char :=
  if n < 0 then '-' :: digitChars n.natAbs else digitChars n.natAbs

/-- Digits with a point after the leading digit, if any digit follows it. -/
def pointed : List Char → List Char
  | leading :: next :: rest => leading :: '.' :: next :: rest
  | short => short

/-- A decimal in positional notation has at least one digit on each side of the point. With an
exponent, the sign of the exponent is always written. -/
def decimalChars (layout : DoubleLayout) (d : Double.Decimal) : List Char :=
  let ds := digitChars d.digits
  let leading : Int := d.exponent + ds.length - 1
  if leading < layout.leastPositional ∨ layout.greatestPositional < leading then
    pointed ds ++ 'e' :: (if leading < 0 then '-' else '+') :: digitChars leading.natAbs
  else if leading < 0 then
    '0' :: '.' :: List.replicate (leading.natAbs - 1) '0' ++ ds
  else if d.exponent < 0 then
    ds.take (leading.natAbs + 1) ++ '.' :: ds.drop (leading.natAbs + 1)
  else
    ds ++ List.replicate d.exponent.natAbs '0' ++ ['.', '0']

def doubleChars (d : Double) : List Char :=
  let magnitude := decimalChars doubleLayout d.shortest
  if d.negative then '-' :: magnitude else magnitude

mutual
def compactChars : Json → List Char
  | .null => ['n', 'u', 'l', 'l']
  | .bool true => ['t', 'r', 'u', 'e']
  | .bool false => ['f', 'a', 'l', 's', 'e']
  | .int value => intChars value.val
  | .double value => doubleChars value
  | .string value => quotedChars value
  | .array items => '[' :: compactItems items ++ [']']
  | .object members => '{' :: compactMembers members ++ ['}']
termination_by structural j => j

def compactItems : List Json → List Char
  | [] => []
  | [item] => item.compactChars
  | item :: next :: rest => item.compactChars ++ ',' :: compactItems (next :: rest)
termination_by structural items => items

def compactMembers : List (String × Json) → List Char
  | [] => []
  | [(key, value)] => quotedChars key ++ ':' :: value.compactChars
  | (key, value) :: next :: rest =>
      quotedChars key ++ ':' :: value.compactChars ++ ',' :: compactMembers (next :: rest)
termination_by structural members => members
end

/-- The text of a value without blanks. -/
def compact (j : Json) : String :=
  String.ofList j.compactChars

/-- The start of a line at a level of nesting. -/
def newLine (level : Nat) : List Char :=
  '\n' :: List.replicate (2 * level) ' '

mutual
def prettyChars (level : Nat) : Json → List Char
  | .array (item :: rest) => '[' :: prettyItems (level + 1) (item :: rest) ++ newLine level ++ [']']
  | .object (member :: rest) =>
      '{' :: prettyMembers (level + 1) (member :: rest) ++ newLine level ++ ['}']
  | flat => flat.compactChars
termination_by structural j => j

def prettyItems (level : Nat) : List Json → List Char
  | [] => []
  | [item] => newLine level ++ item.prettyChars level
  | item :: next :: rest =>
      newLine level ++ item.prettyChars level ++ ',' :: prettyItems level (next :: rest)
termination_by structural items => items

def prettyMembers (level : Nat) : List (String × Json) → List Char
  | [] => []
  | [(key, value)] => newLine level ++ quotedChars key ++ ':' :: ' ' :: value.prettyChars level
  | (key, value) :: next :: rest =>
      newLine level ++ quotedChars key ++ ':' :: ' ' :: value.prettyChars level ++
        ',' :: prettyMembers level (next :: rest)
termination_by structural members => members
end

/-- The text of a value with line breaks and indentation. -/
def pretty (j : Json) : String :=
  String.ofList (j.prettyChars 0)

end Json

end StoredProcedure
