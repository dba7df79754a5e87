import Mathlib.Data.Nat.Cast.Order.Field
import StoredProcedure.Proofs.Rounding

namespace StoredProcedure.Double

theorem ten_pow_le_of_digitCount {n k : Nat} (hn : 0 < n) (h : digitCount n = k + 1) :
    10 ^ k ≤ n := by
  rcases Nat.eq_zero_or_pos k with rfl | hk
  · exact hn
  · have hlength := Nat.length_toDigits_le_iff (n := n) (b := 10) (by decide) hk
    rw [← digitCount, h] at hlength
    omega

theorem lt_ten_pow_digitCount (n : Nat) : n < 10 ^ digitCount n :=
  (Nat.length_toDigits_le_iff (by decide) Nat.length_toDigits_pos).mp (Nat.le_refl _)

theorem ten_pow_leadingExponent_le {num den : Nat} (hnum : 0 < num) (hden : 0 < den) :
    (10 : ℚ) ^ leadingExponent num den ≤ num / den := by
  rw [leadingExponent]
  split
  · rename_i hle
    have hquotient : 0 < num / den := Nat.div_pos hle hden
    have hpos : 0 < digitCount (num / den) := Nat.length_toDigits_pos
    obtain ⟨k, hk⟩ : ∃ k, digitCount (num / den) = k + 1 := ⟨_, (Nat.sub_add_cancel hpos).symm⟩
    have hexponent : (digitCount (num / den) : Int) - 1 = k := by omega
    have hten : (10 : ℚ) ^ k ≤ (num / den : Nat) := by
      exact_mod_cast ten_pow_le_of_digitCount hquotient hk
    rw [hexponent, zpow_natCast]
    exact hten.trans Nat.cast_div_le
  · have hlt := lt_ten_pow_digitCount ((den - 1) / num)
    generalize digitCount ((den - 1) / num) = k at hlt ⊢
    rw [Nat.div_lt_iff_lt_mul hnum] at hlt
    have hmul : (den : ℚ) ≤ 10 ^ k * num := by
      exact_mod_cast (show den ≤ 10 ^ k * num by omega)
    rw [zpow_neg, zpow_natCast, le_div_iff₀ (by exact_mod_cast hden),
      inv_mul_le_iff₀ (by positivity)]
    exact hmul

section Grid

variable {interval : RoundingInterval} {exponent : Int}

theorem holds_of_onGrid {decimal : Decimal} (h : interval.onGrid exponent = some decimal) :
    interval.Holds decimal.value := by
  have hcontains : ∀ digits,
      interval.contains digits (powerUp exponent) (powerDown exponent) = true →
        interval.Holds (Decimal.value ⟨digits, exponent⟩) := by
    intro digits hdigits
    rw [Decimal.value, ← powerUp_div_powerDown]
    exact (RoundingInterval.contains_iff (powerDown_pos exponent)).mp hdigits
  rw [RoundingInterval.onGrid, ← powerUp, ← powerDown] at h
  generalize powerUp exponent <<< 1076 = step at h
  generalize interval.value * powerDown exponent / step = below at h
  split at h
  · rename_i hbelow _
    obtain rfl := Option.some.inj h
    exact hcontains below hbelow
  · rename_i _ habove
    obtain rfl := Option.some.inj h
    exact hcontains (below + 1) habove
  · rename_i hbelow habove
    split at h
    · obtain rfl := Option.some.inj h
      exact hcontains below hbelow
    · split at h
      · obtain rfl := Option.some.inj h
        exact hcontains (below + 1) habove
      · obtain rfl := Option.some.inj h
        rcases Nat.mod_two_eq_zero_or_one below with hmod | hmod
        · rw [hmod]
          exact hcontains below hbelow
        · rw [hmod]
          exact hcontains (below + 1) habove
  · cases h

/-- Something is found on a grid if one of the two multiples around the value is in the interval. -/
theorem exists_onGrid {below : Nat}
    (hbelow : below = interval.value * powerDown exponent / powerUp exponent <<< 1076)
    (h : interval.contains below (powerUp exponent) (powerDown exponent) = true ∨
      interval.contains (below + 1) (powerUp exponent) (powerDown exponent) = true) :
    ∃ decimal, interval.onGrid exponent = some decimal := by
  rw [RoundingInterval.onGrid, ← powerUp, ← powerDown, ← hbelow]
  generalize powerUp exponent <<< 1076 = step
  split
  · exact ⟨_, rfl⟩
  · exact ⟨_, rfl⟩
  · split
    · exact ⟨_, rfl⟩
    · split <;> exact ⟨_, rfl⟩
  · rename_i hbelow habove
    rcases h with h | h
    · cases h.symm.trans hbelow
    · cases h.symm.trans habove

end Grid

section Shortest

variable {d : Double} {exponent : Int}

theorem lower_add_reach (hrank : d.rank.val ≠ 0) :
    d.roundingInterval.lower + d.reach = d.roundingInterval.value := by
  have hreach := d.reach_le
  have hmul := Nat.mul_le_mul_right (2 ^ d.scale) (significand_pos hrank)
  rw [roundingInterval_eq, Nat.mul_assoc]
  dsimp only
  omega

theorem contains_of_lt {interval : RoundingInterval} {digits up down : Nat}
    (hlower : interval.lower * down < (digits * up) <<< 1076)
    (hupper : (digits * up) <<< 1076 < interval.upper * down) :
    interval.contains digits up down = true := by
  rw [RoundingInterval.contains]
  split
  · exact decide_eq_true ⟨hlower.le, hupper.le⟩
  · exact decide_eq_true ⟨hlower, hupper⟩

/-- The interval is wider than any grid of seventeen digits is coarse: the double has at most 53
binary digits, and `2 ^ 53 < 10 ^ 16`. -/
theorem fine_lt_width {down step : Nat} (hrank : d.rank.val ≠ 0) (hdown : 0 < down)
    (hfine : step * 10 ^ 16 ≤ d.roundingInterval.value * down) :
    d.roundingInterval.lower * down + step < d.roundingInterval.upper * down := by
  have hunit : 0 < 2 ^ d.scale * down := Nat.mul_pos (Nat.two_pow_pos _) hdown
  have hvalue : d.roundingInterval.value * down = 4 * (d.significand * (2 ^ d.scale * down)) := by
    rw [roundingInterval_eq]
    ring
  have hlower : d.roundingInterval.lower * down + d.reach * down =
      d.roundingInterval.value * down := by
    rw [← Nat.add_mul, lower_add_reach hrank]
  have hupper : d.roundingInterval.upper * down =
      d.roundingInterval.value * down + 2 * (2 ^ d.scale * down) := by
    rw [roundingInterval_eq]
    ring
  by_cases hpower : d.significand = 2 ^ 52 ∧ 0 < d.scale
  · rw [reach, if_pos hpower] at hlower
    rw [hpower.1] at hvalue
    omega
  · rw [reach, if_neg hpower, Nat.mul_assoc] at hlower
    have hmul := Nat.mul_le_mul_right (2 ^ d.scale * down) (Nat.le_sub_one_of_lt d.significand_lt)
    omega

/-- On a grid of seventeen digits, one of the two multiples around a double is in its rounding
interval. -/
theorem contains_of_fine (hrank : d.rank.val ≠ 0)
    (hfine : powerUp exponent <<< 1076 * 10 ^ 16 ≤ d.roundingInterval.value * powerDown exponent)
    {below : Nat}
    (hbelow : below = d.roundingInterval.value * powerDown exponent / powerUp exponent <<< 1076) :
    d.roundingInterval.contains below (powerUp exponent) (powerDown exponent) = true ∨
      d.roundingInterval.contains (below + 1) (powerUp exponent) (powerDown exponent) = true := by
  have hstep : 0 < powerUp exponent <<< 1076 := by
    rw [shiftLeft_eq_mul]
    exact Nat.mul_pos (powerUp_pos exponent) unitsOfOne_pos
  have hwidth := fine_lt_width hrank (powerDown_pos exponent) hfine
  have hshift : ∀ n, (n * powerUp exponent) <<< 1076 = powerUp exponent <<< 1076 * n := by
    intro n
    rw [shiftLeft_eq_mul, shiftLeft_eq_mul (powerUp exponent) 1076]
    ring
  have hdivision := Nat.div_add_mod (d.roundingInterval.value * powerDown exponent)
    (powerUp exponent <<< 1076)
  have hrem := Nat.mod_lt (d.roundingInterval.value * powerDown exponent) hstep
  rw [← hbelow] at hdivision
  have hlower : d.roundingInterval.lower * powerDown exponent ≤
      d.roundingInterval.value * powerDown exponent :=
    Nat.mul_le_mul_right _ ((lower_add_reach hrank).symm ▸ Nat.le_add_right _ _)
  have hupper : d.roundingInterval.value * powerDown exponent <
      d.roundingInterval.upper * powerDown exponent := by
    apply Nat.mul_lt_mul_of_pos_right _ (powerDown_pos exponent)
    rw [roundingInterval_eq]
    exact Nat.lt_add_of_pos_right (Nat.mul_pos (by decide) (Nat.two_pow_pos _))
  have hnext : powerUp exponent <<< 1076 * (below + 1) =
      powerUp exponent <<< 1076 * below + powerUp exponent <<< 1076 := Nat.mul_succ _ _
  rcases Nat.lt_or_ge (d.roundingInterval.lower * powerDown exponent)
    (powerUp exponent <<< 1076 * below) with hin | hout
  · left
    apply contains_of_lt <;> rw [hshift] <;> omega
  · right
    apply contains_of_lt <;> rw [hshift] <;> omega

theorem magnitude_eq (d : Double) : ((d.significand <<< d.scale : Nat) : ℚ) / (1 <<< 1074 : Nat) =
    d.roundingInterval.value / unitsOfOne := by
  have hunits : unitsOfOne = 1 <<< 1074 * 4 := by
    rw [unitsOfOne, Nat.shiftLeft_add 1 1074 2, Nat.shiftLeft_eq _ 2]
  have hpos : (0 : ℚ) < (1 <<< 1074 : Nat) := by exact_mod_cast one_shiftLeft_pos 1074
  rw [hunits, roundingInterval_eq, Nat.shiftLeft_eq]
  generalize 1 <<< 1074 = one at hpos ⊢
  push_cast
  field_simp

theorem exists_onGrid_leading (hrank : d.rank.val ≠ 0) : ∃ decimal,
    d.roundingInterval.onGrid
      (leadingExponent (d.significand <<< d.scale) (1 <<< 1074) - (16 : Nat)) = some decimal := by
  have hnum : 0 < d.significand <<< d.scale := by
    rw [Nat.shiftLeft_eq]
    exact Nat.mul_pos (significand_pos hrank) (Nat.two_pow_pos _)
  have hleading := ten_pow_leadingExponent_le hnum (one_shiftLeft_pos 1074)
  rw [magnitude_eq] at hleading
  generalize leadingExponent (d.significand <<< d.scale) (1 <<< 1074) = leading at hleading ⊢
  refine exists_onGrid rfl (contains_of_fine hrank ?_ rfl)
  have hunits : (0 : ℚ) < unitsOfOne := by exact_mod_cast unitsOfOne_pos
  have hdown : (0 : ℚ) < powerDown (leading - (16 : Nat)) := by exact_mod_cast powerDown_pos _
  have hpower : (10 : ℚ) ^ leading = 10 ^ (leading - (16 : Nat)) * 10 ^ 16 := by
    rw [zpow_sub₀ (by norm_num), zpow_natCast]
    exact (div_mul_cancel₀ _ (by norm_num)).symm
  rw [hpower, ← powerUp_div_powerDown, le_div_iff₀ hunits, div_mul_eq_mul_div, div_mul_eq_mul_div,
    div_le_iff₀ hdown] at hleading
  rw [shiftLeft_eq_mul, ← unitsOfOne, Nat.mul_right_comm]
  exact_mod_cast hleading

theorem value_carry (decimal : Decimal) : decimal.carry.value = decimal.value := by
  rw [Decimal.carry]
  split
  · rename_i h
    rw [Decimal.value, Decimal.value, h, zpow_add_one₀ (by norm_num)]
    push_cast
    ring
  · rfl

theorem holds_shortest (hrank : d.rank.val ≠ 0) : d.roundingInterval.Holds d.shortest.value := by
  obtain ⟨fine, hfine⟩ := exists_onGrid_leading hrank
  rw [shortest, if_neg hrank]
  dsimp only
  rw [value_carry]
  generalize leadingExponent (d.significand <<< d.scale) (1 <<< 1074) = leading at hfine ⊢
  cases hfound : (List.range 17).findSome? fun (further : Nat) =>
      d.roundingInterval.onGrid (leading - further) with
  | none =>
      rw [List.findSome?_eq_none_iff] at hfound
      cases (hfound 16 (by decide)).symm.trans hfine
  | some decimal =>
      obtain ⟨further, -, hgrid⟩ := List.exists_of_findSome?_eq_some hfound
      exact holds_of_onGrid hgrid

theorem digits_shortest_pos (hrank : d.rank.val ≠ 0) : 0 < d.shortest.digits := by
  have hlower := (bounds_of_holds (holds_shortest hrank)).2.1
  have hpos := Nat.mul_le_mul (two_le_lower hrank) (powerDown_pos d.shortest.exponent)
  rcases Nat.eq_zero_or_pos d.shortest.digits with hzero | hdigits
  · rw [hzero, Nat.zero_mul, Nat.zero_mul] at hlower
    omega
  · exact hdigits

/-- Every decimal of the value of the shortest decimal is read as the double. -/
theorem ofDecimal?_of_value {digits : Nat}
    (h : Decimal.value ⟨digits, exponent⟩ = d.shortest.value) :
    ofDecimal? d.negative digits exponent = some d := by
  by_cases hrank : d.rank.val = 0
  · rw [shortest, if_pos hrank, Decimal.value, Decimal.value] at h
    have hpower : (10 : ℚ) ^ exponent ≠ 0 := zpow_ne_zero exponent (by norm_num)
    have hdigits : digits = 0 := by
      simpa [hpower] using h
    have hfin : (⟨0, by decide⟩ : Fin (2047 <<< 52)) = d.rank := Fin.ext hrank.symm
    rw [ofDecimal?, if_pos hdigits, zero]
    exact congrArg some (congrArg (Double.mk d.negative) hfin)
  · have hholds := holds_shortest hrank
    rw [← h] at hholds
    exact ofDecimal?_eq hrank hholds

end Shortest

end StoredProcedure.Double
