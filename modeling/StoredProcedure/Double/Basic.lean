/-!
Finite double-precision numbers, in exact arithmetic. The non-negative finite doubles are numbered
`0, 1, 2, …` in ascending order; a double is a sign and such a rank. Infinities and NaN have no
place in a program document, so they are not represented. Zero has two signs.

`Double.ofDecimal?` rounds a decimal to the nearest double, a tie going to the even one.
-/

namespace StoredProcedure

/-- A finite double: its sign, and the rank of its magnitude among the non-negative ones. -/
structure Double where
  negative : Bool
  rank : Fin (2047 <<< 52)
deriving DecidableEq

namespace Double

/-- The quotient rounded to the nearest natural number, a tie going to the even one. -/
def roundDiv (num den : Nat) : Nat :=
  let quotient := num / den
  let twice := 2 * (num % den)
  if twice < den then quotient
  else if den < twice then quotient + 1
  else quotient + quotient % 2

/-- The integer part of a double in units of `2 ^ (scale - 1074)`. -/
def significand (d : Double) : Nat :=
  if d.rank.val < 1 <<< 52 then d.rank.val else 1 <<< 52 + d.rank.val % (1 <<< 52)

/-- The magnitude of a double is `significand * 2 ^ scale / 2 ^ 1074`. -/
def scale (d : Double) : Nat :=
  d.rank.val >>> 52 - 1

/-- The rank of the double nearest to a fraction. It may lie beyond the finite ones. From `2 ^ 53`
units of `2 ^ -1074` on, doubles are spaced so that 53 binary digits are kept. -/
def rankOfFraction (num den : Nat) : Nat :=
  let units := num <<< 1074
  let shift := (units / den).log2 - 52
  shift <<< 52 + roundDiv units (den <<< shift)

/-- The double nearest to a fraction, or none when that is beyond the largest. -/
def ofFraction? (negative : Bool) (num den : Nat) : Option Double :=
  let rank := rankOfFraction num den
  if h : rank < 2047 <<< 52 then some ⟨negative, rank, h⟩ else none

def zero (negative : Bool) : Double :=
  ⟨negative, 0, by decide⟩

/-- The double nearest to `digits * 10 ^ exponent`, or none when that is beyond the largest.
Exponents that are out of reach of the digits are settled without computing the power. -/
def ofDecimal? (negative : Bool) (digits : Nat) (exponent : Int) : Option Double :=
  if digits = 0 then some (zero negative)
  else if exponent > 310 then none
  else if exponent < -(332 + digits.log2 : Int) then some (zero negative)
  else if exponent < 0 then ofFraction? negative digits (Nat.pow 10 exponent.natAbs)
  else ofFraction? negative (digits * Nat.pow 10 exponent.natAbs) 1

end Double

end StoredProcedure
