import Mathlib.Algebra.Order.Field.Power
import Mathlib.Data.Rat.Cast.Order
import Mathlib.Tactic.FieldSimp
import Mathlib.Tactic.Linarith
import Mathlib.Tactic.Ring
import StoredProcedure.Double.Shortest

namespace StoredProcedure.Double

theorem roundDiv_eq {num den k : Nat} (hlow : 2 * (den * k) ≤ 2 * num + den)
    (hhigh : 2 * num ≤ 2 * (den * k) + den)
    (hodd : k % 2 = 1 → 2 * (den * k) < 2 * num + den ∧ 2 * num < 2 * (den * k) + den)
    (hden : 0 < den) : roundDiv num den = k := by
  have hnum := Nat.div_add_mod num den
  have hrem := Nat.mod_lt num hden
  rw [roundDiv]
  generalize num / den = q at hnum ⊢
  generalize num % den = rem at hnum hrem ⊢
  rcases Nat.lt_trichotomy k q with hlt | rfl | hgt
  · have hmul := Nat.mul_le_mul_left den hlt
    rw [Nat.mul_succ] at hmul
    omega
  · split
    · rfl
    · split <;> omega
  · rcases Nat.lt_or_ge (q + 1) k with hfar | hnear
    · have hmul := Nat.mul_le_mul_left den hfar
      rw [Nat.mul_succ, Nat.mul_succ] at hmul
      omega
    · obtain rfl : k = q + 1 := by omega
      rw [Nat.mul_succ] at hlow hhigh hodd
      split
      · omega
      · split <;> omega

section Rank

variable (d : Double)

theorem rank_eq : d.rank.val = d.scale * 2 ^ 52 + d.significand := by
  have hpow : 1 <<< 52 = 2 ^ 52 := rfl
  rw [scale, significand, Nat.shiftRight_eq_div_pow, hpow]
  split <;> omega

theorem significand_lt : d.significand < 2 ^ 53 := by
  have hpow : 1 <<< 52 = 2 ^ 52 := rfl
  rw [significand, hpow]
  split <;> omega

theorem le_significand (h : 0 < d.scale) : 2 ^ 52 ≤ d.significand := by
  have hpow : 1 <<< 52 = 2 ^ 52 := rfl
  rw [scale, Nat.shiftRight_eq_div_pow] at h
  rw [significand, hpow]
  split <;> omega

theorem scale_lt : d.scale < 2046 := by
  have hrank : d.rank.val < 2047 * 2 ^ 52 := d.rank.isLt
  rw [scale, Nat.shiftRight_eq_div_pow]
  omega

/-- How far the rounding interval reaches down, in quarters of a unit. -/
def reach : Nat :=
  if d.significand = 2 ^ 52 ∧ 0 < d.scale then 2 ^ d.scale else 2 * 2 ^ d.scale

theorem reach_le : d.reach ≤ 2 * 2 ^ d.scale := by
  rw [reach]
  split <;> omega

end Rank

section Interval

variable {d : Double} {digits up down : Nat}

theorem roundingInterval_eq (d : Double) : d.roundingInterval =
    ⟨4 * d.significand * 2 ^ d.scale, 4 * d.significand * 2 ^ d.scale - d.reach,
      4 * d.significand * 2 ^ d.scale + 2 * 2 ^ d.scale, d.significand % 2 = 0⟩ := by
  simp only [roundingInterval, reach, Nat.shiftLeft_eq, Nat.one_mul]

/-- What it means to be in the rounding interval, without subtraction. An end belongs to it only if
the significand is even. -/
theorem bounds_of_contains (h : d.roundingInterval.contains digits up down = true) :
    (4 * (down * 2 ^ d.scale * d.significand) ≤ 4 * (digits * up) <<< 1074 + down * d.reach ∧
      4 * (digits * up) <<< 1074 ≤
        4 * (down * 2 ^ d.scale * d.significand) + 2 * (down * 2 ^ d.scale)) ∧
      (d.significand % 2 = 1 →
        4 * (down * 2 ^ d.scale * d.significand) < 4 * (digits * up) <<< 1074 + down * d.reach ∧
          4 * (digits * up) <<< 1074 <
            4 * (down * 2 ^ d.scale * d.significand) + 2 * (down * 2 ^ d.scale)) := by
  have hunits : (digits * up) <<< 1076 = 4 * (digits * up) <<< 1074 := by
    rw [Nat.shiftLeft_add (digits * up) 1074 2, Nat.shiftLeft_eq _ 2, Nat.mul_comm]
  have hvalue : 4 * d.significand * 2 ^ d.scale * down =
      4 * (down * 2 ^ d.scale * d.significand) := by
    ring
  have hlower : 4 * d.significand * 2 ^ d.scale * down ≤
      (4 * d.significand * 2 ^ d.scale - d.reach) * down + down * d.reach := by
    rw [Nat.mul_comm down, ← Nat.add_mul]
    exact Nat.mul_le_mul_right down (by omega)
  have hupper : (4 * d.significand * 2 ^ d.scale + 2 * 2 ^ d.scale) * down =
      4 * (down * 2 ^ d.scale * d.significand) + 2 * (down * 2 ^ d.scale) := by
    ring
  rw [roundingInterval_eq, RoundingInterval.contains, hunits] at h
  rw [hvalue] at hlower
  rw [hupper] at h
  by_cases heven : d.significand % 2 = 0
  · simp only [heven, decide_true, if_true, decide_eq_true_eq] at h
    omega
  · simp only [heven, decide_false, Bool.false_eq_true, if_false, decide_eq_true_eq] at h
    omega

theorem shift_eq {units den t : Nat} (hden : 0 < den) (hlow : den * 2 ^ t * 2 ^ 52 ≤ units)
    (hhigh : units < den * 2 ^ t * 2 ^ 53) : (units / den).log2 - 52 = t := by
  have hle : 2 ^ (52 + t) ≤ units / den := by
    rw [Nat.le_div_iff_mul_le hden, Nat.pow_add]
    calc 2 ^ 52 * 2 ^ t * den = den * 2 ^ t * 2 ^ 52 := by ring
      _ ≤ units := hlow
  have hlt : units / den < 2 ^ (52 + t + 1) := by
    rw [Nat.div_lt_iff_lt_mul hden, Nat.pow_succ, Nat.pow_add]
    calc units < den * 2 ^ t * 2 ^ 53 := hhigh
      _ = 2 ^ 52 * 2 ^ t * 2 * den := by ring
  have hne : units / den ≠ 0 := by
    have hpos : 0 < 2 ^ (52 + t) := Nat.two_pow_pos _
    omega
  rw [(Nat.log2_eq_iff hne).mpr ⟨hle, hlt⟩]
  omega

theorem shift_eq_zero {units den : Nat} (hden : 0 < den) (hhigh : units < den * 2 ^ 53) :
    (units / den).log2 - 52 = 0 := by
  have hlt : units / den < 2 ^ 53 := by
    rw [Nat.div_lt_iff_lt_mul hden, Nat.mul_comm]
    exact hhigh
  by_cases hzero : units / den = 0
  · rw [hzero]
    rfl
  · have hlog := (Nat.log2_lt hzero).mpr hlt
    omega

/-- Below a power of two the doubles are half as far apart. Numbers there that are nearest to the
power are rounded up to it. -/
theorem round_below_power {units den t : Nat} (hden : 0 < den)
    (hless : units < 2 * (den * 2 ^ t) * 2 ^ 52)
    (hlow : 4 * (2 * (den * 2 ^ t) * 2 ^ 52) ≤ 4 * units + 2 * (den * 2 ^ t)) :
    (units / den).log2 - 52 = t ∧ roundDiv units (den * 2 ^ t) = 2 ^ 53 := by
  have hunit : 0 < den * 2 ^ t := Nat.mul_pos hden (Nat.two_pow_pos _)
  constructor
  · apply shift_eq hden
    · omega
    · calc units < 2 * (den * 2 ^ t) * 2 ^ 52 := hless
        _ = den * 2 ^ t * 2 ^ 53 := by ring
  · apply roundDiv_eq
    · omega
    · omega
    · exact fun h => absurd h (by decide)
    · exact hunit

/-- A number in the rounding interval of a double has its rank. -/
theorem rankOfFraction_eq (h : d.roundingInterval.contains digits up down = true)
    (hdown : 0 < down) : rankOfFraction (digits * up) down = d.rank.val := by
  obtain ⟨⟨hlow, hhigh⟩, hodd⟩ := bounds_of_contains h
  have hlt := d.significand_lt
  have hreach := Nat.mul_le_mul_left down d.reach_le
  rw [← Nat.mul_assoc, Nat.mul_comm down 2, Nat.mul_assoc] at hreach
  have hunit : 0 < down * 2 ^ d.scale := Nat.mul_pos hdown (Nat.two_pow_pos _)
  have hbelow : down * 2 ^ d.scale * d.significand ≤ down * 2 ^ d.scale * (2 ^ 53 - 1) :=
    Nat.mul_le_mul_left _ (Nat.le_sub_one_of_lt hlt)
  rw [rank_eq, rankOfFraction]
  simp only [Nat.shiftLeft_eq _ 52]
  generalize (digits * up) <<< 1074 = units at *
  have hround : roundDiv units (down * 2 ^ d.scale) = d.significand := by
    apply roundDiv_eq
    · omega
    · omega
    · intro h
      have hstrict := hodd h
      omega
    · exact hunit
  rcases Nat.eq_zero_or_pos d.scale with hzero | hpos
  · have hshift : (units / down).log2 - 52 = d.scale := by
      rw [hzero] at hhigh hbelow hunit ⊢
      apply shift_eq_zero hdown
      omega
    rw [hshift, Nat.shiftLeft_eq, hround]
  · rcases Nat.lt_or_ge units (down * 2 ^ d.scale * 2 ^ 52) with hless | hmore
    · have hpower : d.significand = 2 ^ 52 := by
        rcases Nat.lt_or_ge (2 ^ 52) d.significand with hmore | hle
        · have hmul := Nat.mul_le_mul_left (down * 2 ^ d.scale) hmore
          rw [Nat.mul_succ] at hmul
          omega
        · exact Nat.le_antisymm hle (d.le_significand hpos)
      have hreach : d.reach = 2 ^ d.scale := by
        rw [reach, if_pos ⟨hpower, hpos⟩]
      obtain ⟨t, ht⟩ : ∃ t, d.scale = t + 1 := ⟨d.scale - 1, by omega⟩
      have hhalf : down * 2 ^ d.scale = 2 * (down * 2 ^ t) := by
        rw [ht, Nat.pow_succ]
        ring
      rw [hpower, hreach, hhalf] at hlow
      rw [hhalf] at hless
      obtain ⟨hshift, hround⟩ := round_below_power hdown hless hlow
      rw [hshift, Nat.shiftLeft_eq, hround, ht, hpower]
      omega
    · have hshift : (units / down).log2 - 52 = d.scale := by
        apply shift_eq hdown hmore
        omega
      rw [hshift, Nat.shiftLeft_eq, hround]

end Interval

/-- The number that a decimal stands for. -/
def Decimal.value (decimal : Decimal) : ℚ :=
  decimal.digits * 10 ^ decimal.exponent

/-- How many units of a rounding interval make one. -/
def unitsOfOne : Nat :=
  1 <<< 1076

theorem shiftLeft_eq_mul (n k : Nat) : n <<< k = n * 1 <<< k := by
  rw [Nat.shiftLeft_eq, Nat.shiftLeft_eq 1, Nat.one_mul]

theorem one_shiftLeft_pos (k : Nat) : 0 < 1 <<< k := by
  rw [Nat.shiftLeft_eq, Nat.one_mul]
  exact Nat.two_pow_pos k

theorem unitsOfOne_pos : 0 < unitsOfOne :=
  one_shiftLeft_pos 1076

/-- The number is in the interval. -/
def RoundingInterval.Holds (interval : RoundingInterval) (x : ℚ) : Prop :=
  if interval.closed then interval.lower ≤ x * unitsOfOne ∧ x * unitsOfOne ≤ interval.upper
  else interval.lower < x * unitsOfOne ∧ x * unitsOfOne < interval.upper

theorem RoundingInterval.contains_iff {interval : RoundingInterval} {digits up down : Nat}
    (hdown : 0 < down) :
    interval.contains digits up down = true ↔ interval.Holds (digits * (up / down)) := by
  have hden : (0 : ℚ) < down := by exact_mod_cast hdown
  have hscale : (digits * (up / down) : ℚ) * unitsOfOne =
      (digits * up * unitsOfOne : Nat) / down := by
    push_cast
    ring
  rw [contains, Holds, hscale, shiftLeft_eq_mul (digits * up) 1076, ← unitsOfOne]
  split
  · rw [decide_eq_true_eq, le_div_iff₀ hden, div_le_iff₀ hden]
    norm_cast
  · rw [decide_eq_true_eq, lt_div_iff₀ hden, div_lt_iff₀ hden]
    norm_cast

/-- The two sides of a power of ten as a fraction. -/
def powerUp (exponent : Int) : Nat :=
  if exponent < 0 then 1 else Nat.pow 10 exponent.natAbs

def powerDown (exponent : Int) : Nat :=
  if exponent < 0 then Nat.pow 10 exponent.natAbs else 1

theorem powerUp_pos (exponent : Int) : 0 < powerUp exponent := by
  rw [powerUp]
  split
  · decide
  · exact Nat.pow_pos (by decide)

theorem powerDown_pos (exponent : Int) : 0 < powerDown exponent := by
  rw [powerDown]
  split
  · exact Nat.pow_pos (by decide)
  · decide

theorem powerUp_div_powerDown (exponent : Int) :
    (powerUp exponent : ℚ) / powerDown exponent = 10 ^ exponent := by
  rw [powerUp, powerDown]
  split
  · rename_i h
    have hneg : exponent = -(exponent.natAbs : Int) := by omega
    nth_rewrite 2 [hneg]
    rw [zpow_neg, zpow_natCast, Nat.pow_eq]
    push_cast
    exact one_div _
  · rename_i h
    have hpos : exponent = (exponent.natAbs : Int) := by omega
    nth_rewrite 2 [hpos]
    rw [zpow_natCast, Nat.pow_eq]
    push_cast
    exact div_one _

section Decimal

variable {d : Double}

theorem significand_pos (h : d.rank.val ≠ 0) : 0 < d.significand := by
  have hrank := d.rank_eq
  rcases Nat.eq_zero_or_pos d.scale with hzero | hpos
  · rw [hzero] at hrank
    omega
  · have hle := d.le_significand hpos
    omega

theorem two_le_lower (h : d.rank.val ≠ 0) : 2 ≤ d.roundingInterval.lower := by
  have hreach := d.reach_le
  have hunit : 0 < 2 ^ d.scale := Nat.two_pow_pos _
  have hmul := Nat.mul_le_mul_right (2 ^ d.scale) (significand_pos h)
  rw [roundingInterval_eq, Nat.mul_assoc]
  dsimp only
  omega

theorem upper_le : d.roundingInterval.upper ≤ 2 ^ (55 + d.scale) := by
  have hlt := d.significand_lt
  rw [roundingInterval_eq, Nat.pow_add]
  calc 4 * d.significand * 2 ^ d.scale + 2 * 2 ^ d.scale
      = (4 * d.significand + 2) * 2 ^ d.scale := by ring
    _ ≤ 2 ^ 55 * 2 ^ d.scale := Nat.mul_le_mul_right _ (by omega)

theorem bounds_of_holds {digits : Nat} {exponent : Int}
    (h : d.roundingInterval.Holds (digits * 10 ^ exponent)) :
    d.roundingInterval.contains digits (powerUp exponent) (powerDown exponent) = true ∧
      d.roundingInterval.lower * powerDown exponent ≤ digits * powerUp exponent * unitsOfOne ∧
      digits * powerUp exponent * unitsOfOne ≤ d.roundingInterval.upper * powerDown exponent := by
  rw [← powerUp_div_powerDown] at h
  have hcontains := (RoundingInterval.contains_iff (powerDown_pos exponent)).mpr h
  refine ⟨hcontains, ?_⟩
  rw [RoundingInterval.contains, shiftLeft_eq_mul (digits * powerUp exponent) 1076, ← unitsOfOne]
    at hcontains
  split at hcontains
  · exact decide_eq_true_eq.mp hcontains
  · have hstrict := decide_eq_true_eq.mp hcontains
    exact ⟨hstrict.1.le, hstrict.2.le⟩

theorem two_pow_mul_unitsOfOne (n : Nat) : 2 ^ n * unitsOfOne = 2 ^ (n + 1076) := by
  rw [unitsOfOne, ← shiftLeft_eq_mul, Nat.shiftLeft_eq, Nat.pow_add]

theorem two_pow_le_ten_pow {a b k n : Nat} (h : 2 ^ a ≤ 10 ^ b) (hn : b * k ≤ n) :
    2 ^ (a * k) ≤ 10 ^ n :=
  calc 2 ^ (a * k) = (2 ^ a) ^ k := Nat.pow_mul 2 a k
    _ ≤ (10 ^ b) ^ k := Nat.pow_le_pow_left h k
    _ = 10 ^ (b * k) := (Nat.pow_mul 10 b k).symm
    _ ≤ 10 ^ n := Nat.pow_le_pow_right (by decide) hn

/-- A decimal with a larger exponent lies beyond the largest double. -/
theorem exponent_le {digits : Nat} {exponent : Int} (hdigits : digits ≠ 0)
    (h : digits * powerUp exponent * unitsOfOne ≤ d.roundingInterval.upper * powerDown exponent) :
    exponent ≤ 310 := by
  by_contra hexponent
  rw [powerUp, powerDown, if_neg (by omega), if_neg (by omega), Nat.mul_one, Nat.pow_eq] at h
  have hscale := d.scale_lt
  have hpower : 2 ^ (205 * 5) ≤ 10 ^ exponent.natAbs :=
    two_pow_le_ten_pow (b := 62) (by norm_num) (by omega)
  have hle : 2 ^ (205 * 5 + 1076) ≤ 2 ^ (55 + d.scale) :=
    calc 2 ^ (205 * 5 + 1076) = 2 ^ (205 * 5) * unitsOfOne := (two_pow_mul_unitsOfOne _).symm
      _ ≤ 10 ^ exponent.natAbs * unitsOfOne := Nat.mul_le_mul_right _ hpower
      _ ≤ digits * 10 ^ exponent.natAbs * unitsOfOne :=
          Nat.mul_le_mul_right _ (Nat.le_mul_of_pos_left _ (Nat.pos_of_ne_zero hdigits))
      _ ≤ 2 ^ (55 + d.scale) := h.trans d.upper_le
  have hexponents := (Nat.pow_le_pow_iff_right (by decide)).mp hle
  omega

theorem le_exponent {digits : Nat} {exponent : Int} (hrank : d.rank.val ≠ 0)
    (h : d.roundingInterval.lower * powerDown exponent ≤ digits * powerUp exponent * unitsOfOne) :
    -(332 + digits.log2 : Int) ≤ exponent := by
  by_contra hexponent
  rw [powerUp, powerDown, if_pos (by omega), if_pos (by omega), Nat.mul_one, Nat.pow_eq] at h
  obtain ⟨n, hn, hexp⟩ : ∃ n, 37 * 9 ≤ n ∧ exponent.natAbs = n + digits.log2 :=
    ⟨exponent.natAbs - digits.log2, by omega, by omega⟩
  have hpower : 2 ^ (122 * 9 + digits.log2) ≤ 10 ^ exponent.natAbs := by
    have hten : 2 ^ (122 * 9) ≤ 10 ^ n := two_pow_le_ten_pow (by norm_num) hn
    have htwo : 2 ^ digits.log2 ≤ 10 ^ digits.log2 := Nat.pow_le_pow_left (by decide) _
    rw [hexp, pow_add, pow_add]
    exact Nat.mul_le_mul hten htwo
  have hlt : 2 ^ (122 * 9 + digits.log2) < 2 ^ (digits.log2 + 1 + 1076) :=
    calc 2 ^ (122 * 9 + digits.log2) ≤ 10 ^ exponent.natAbs := hpower
      _ ≤ d.roundingInterval.lower * 10 ^ exponent.natAbs :=
          Nat.le_mul_of_pos_left _ (Nat.lt_of_lt_of_le (by decide) (two_le_lower hrank))
      _ ≤ digits * unitsOfOne := h
      _ < 2 ^ (digits.log2 + 1) * unitsOfOne :=
          Nat.mul_lt_mul_of_pos_right Nat.lt_log2_self unitsOfOne_pos
      _ = 2 ^ (digits.log2 + 1 + 1076) := two_pow_mul_unitsOfOne _
  have hexponents := (Nat.pow_lt_pow_iff_right (by decide)).mp hlt
  omega

/-- A decimal in the rounding interval of a double is read as this double. -/
theorem ofDecimal?_eq {digits : Nat} {exponent : Int} (hrank : d.rank.val ≠ 0)
    (h : d.roundingInterval.Holds (digits * 10 ^ exponent)) :
    ofDecimal? d.negative digits exponent = some d := by
  obtain ⟨hcontains, hlower, hupper⟩ := bounds_of_holds h
  have hread := rankOfFraction_eq hcontains (powerDown_pos exponent)
  have hfraction : ofFraction? d.negative (digits * powerUp exponent) (powerDown exponent) =
      some d := by
    have hlt : rankOfFraction (digits * powerUp exponent) (powerDown exponent) < 2047 <<< 52 := by
      rw [hread]
      exact d.rank.isLt
    rw [ofFraction?, dif_pos hlt]
    have hfin : (⟨_, hlt⟩ : Fin (2047 <<< 52)) = d.rank := Fin.ext hread
    rw [hfin]
  have hdigits : digits ≠ 0 := by
    rintro rfl
    have hpos := Nat.mul_le_mul (two_le_lower hrank) (powerDown_pos exponent)
    rw [Nat.zero_mul, Nat.zero_mul] at hlower
    omega
  have hhigh : ¬ exponent > 310 := Int.not_lt.mpr (exponent_le hdigits hupper)
  have hlow : ¬ exponent < -(332 + digits.log2 : Int) := Int.not_lt.mpr (le_exponent hrank hlower)
  rw [ofDecimal?, if_neg hdigits, if_neg hhigh, if_neg hlow]
  rw [powerUp, powerDown] at hfraction
  split at hfraction
  · rename_i hneg
    rw [if_pos hneg]
    rwa [Nat.mul_one] at hfraction
  · rename_i hpos
    rwa [if_neg hpos]

end Decimal

end StoredProcedure.Double
