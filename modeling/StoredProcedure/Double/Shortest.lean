import StoredProcedure.Double.Basic

namespace StoredProcedure

namespace Double

/-- A decimal: `digits * 10 ^ exponent`. -/
structure Decimal where
  digits : Nat
  exponent : Int
deriving DecidableEq

/-- The number of digits of a natural number written in base ten; zero has one. -/
def digitCount (n : Nat) : Nat :=
  (Nat.toDigits 10 n).length

/-- The exponent of the leading digit of a positive fraction: the `e` for which the fraction is at
least `10 ^ e` and less than `10 ^ (e + 1)`. -/
def leadingExponent (num den : Nat) : Int :=
  if den ≤ num then digitCount (num / den) - 1
  else -(digitCount ((den - 1) / num) : Int)

/-- Numbers that round to a double, in units of `2 ^ -1076`. -/
structure RoundingInterval where
  value : Nat
  lower : Nat
  upper : Nat
  closed : Bool

/-- Halfway to the neighbours on both sides. The lower neighbour of a power of two is only half
as far away, unless the spacing is already the least. -/
def roundingInterval (d : Double) : RoundingInterval :=
  let unit := 1 <<< d.scale
  let value := 4 * d.significand * unit
  let below := if d.significand = 1 <<< 52 ∧ 0 < d.scale then unit else 2 * unit
  ⟨value, value - below, value + 2 * unit, d.significand % 2 = 0⟩

namespace RoundingInterval

/-- Is `digits * up / down` in the interval? -/
def contains (interval : RoundingInterval) (digits up down : Nat) : Bool :=
  let candidate := (digits * up) <<< 1076
  if interval.closed then
    interval.lower * down ≤ candidate ∧ candidate ≤ interval.upper * down
  else
    interval.lower * down < candidate ∧ candidate < interval.upper * down

/-- The multiple of `10 ^ exponent` in the interval that is nearest to the value, if there is one.
Only the two multiples around the value need to be tried. -/
def onGrid (interval : RoundingInterval) (exponent : Int) : Option Decimal :=
  let up := if exponent < 0 then 1 else Nat.pow 10 exponent.natAbs
  let down := if exponent < 0 then Nat.pow 10 exponent.natAbs else 1
  let step := up <<< 1076
  let below := interval.value * down / step
  let twice := 2 * (interval.value * down % step)
  let above := below + 1
  match interval.contains below up down, interval.contains above up down with
  | true, false => some ⟨below, exponent⟩
  | false, true => some ⟨above, exponent⟩
  | true, true =>
      if twice < step then some ⟨below, exponent⟩
      else if step < twice then some ⟨above, exponent⟩
      else some ⟨below + below % 2, exponent⟩
  | false, false => none

end RoundingInterval

/-- Ten units of a grid are written as one unit of the next coarser grid. -/
def Decimal.carry (d : Decimal) : Decimal :=
  if d.digits = 10 then ⟨1, d.exponent + 1⟩ else d

/-- The shortest decimal of a double. Grids are tried from coarse to fine, the first with one digit
before a carry; seventeen digits always suffice, so the last alternative is not reached. -/
def shortest (d : Double) : Decimal :=
  if d.rank.val = 0 then ⟨0, 0⟩
  else
    let interval := d.roundingInterval
    let leading := leadingExponent (d.significand <<< d.scale) (1 <<< 1074)
    let found := (List.range 17).findSome? fun (further : Nat) =>
      interval.onGrid (leading - further)
    (found.getD ⟨0, 0⟩).carry

end Double

end StoredProcedure
