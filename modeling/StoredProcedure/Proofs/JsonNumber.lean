import StoredProcedure.Proofs.JsonLexing
import StoredProcedure.Proofs.ShortestDecimal

namespace StoredProcedure

/-- How an integer is written. -/
def WordInt.numeral (n : WordInt) : Numeral :=
  ⟨n.val < 0, n.val.natAbs, 0, true⟩

/-- How a decimal is written. Integers of up to sixteen digits get a point and a zero. -/
def Double.Decimal.numeral (decimal : Decimal) (negative : Bool) : Numeral :=
  if 0 ≤ decimal.exponent ∧
      decimal.exponent + (Json.digitChars decimal.digits).length - 1 ≤ 15 then
    ⟨negative, decimal.digits * 10 ^ (decimal.exponent.natAbs + 1), -1, false⟩
  else ⟨negative, decimal.digits, decimal.exponent, false⟩

namespace Lexer

variable {negative : Bool} {cs : List Char}

theorem digit?_of_isDigit {c : Char} (h : c.isDigit = true) :
    digit? c = some (c.toNat - '0'.toNat) := by
  rw [digit?, if_pos]
  exact Char.isDigit_iff_toNat.mp h

theorem isDigit_cases {c : Char} (h : c.isDigit = true) :
    c = '0' ∨ c = '1' ∨ c = '2' ∨ c = '3' ∨ c = '4' ∨ c = '5' ∨ c = '6' ∨ c = '7' ∨ c = '8' ∨
      c = '9' := by
  have hall : ∀ n < 58, 48 ≤ n → Char.ofNat n ∈ "0123456789".toList := by decide
  obtain ⟨hlow, hhigh⟩ := Char.isDigit_iff_toNat.mp h
  have hmem := hall c.toNat (Nat.lt_succ_of_le hhigh) hlow
  rw [Char.ofNat_toNat] at hmem
  simpa using hmem

theorem isDigit_digitChars (n : Nat) : ∀ c ∈ Json.digitChars n, c.isDigit = true :=
  fun _ hc => Nat.isDigit_of_mem_toDigits (by decide) (by decide) hc

theorem isDigit_zeros (n : Nat) : ∀ c ∈ List.replicate n '0', c.isDigit = true :=
  fun _ hc => List.eq_of_mem_replicate hc ▸ rfl

theorem ofDigitChars_snoc (cs : List Char) (c : Char) (n : Nat) :
    Nat.ofDigitChars 10 (cs ++ [c]) n = Nat.ofDigitChars 10 cs n * 10 + (c.toNat - '0'.toNat) := by
  rw [Nat.ofDigitChars_append, Nat.ofDigitChars_cons, Nat.ofDigitChars_nil, Nat.mul_comm]

theorem scans_digits {scan : List Char → NumberScan}
    (hstep : ∀ read c, c.isDigit = true → (scan read).extend? c = some (scan (read ++ [c])))
    (h : ∀ c ∈ cs, c.isDigit = true) (read : List Char) :
    Scans (.number (scan read)) cs [] (.number (scan (read ++ cs))) := by
  induction cs generalizing read with
  | nil =>
      rw [List.append_nil]
      exact .nil
  | cons c rest ih =>
      obtain ⟨hc, hrest⟩ := List.forall_mem_cons.mp h
      have hread : step? (.number (scan read)) (some c) =
          some ([], .number (scan (read ++ [c]))) := by
        rw [step?, hstep read c hc]
      have hscan := ih hrest (read ++ [c])
      rw [List.append_assoc] at hscan
      exact .silent hread hscan

/-- A number before its point. -/
def wholeScan (negative : Bool) (cs : List Char) : NumberScan :=
  ⟨.whole, negative, Nat.ofDigitChars 10 cs 0, 0, false, 0⟩

/-- A number after its point, with `n` before it. -/
def fractionScan (negative : Bool) (n : Nat) (cs : List Char) : NumberScan :=
  ⟨.fraction, negative, Nat.ofDigitChars 10 cs n, cs.length, false, 0⟩

/-- A number in its exponent. -/
def powerScan (negative : Bool) (digits places : Nat) (powerNegative : Bool) (cs : List Char) :
    NumberScan :=
  ⟨.power, negative, digits, places, powerNegative, Nat.ofDigitChars 10 cs 0⟩

/-- Where a number of a sign starts. -/
def signState (negative : Bool) : State :=
  if negative then .number ⟨.minus, true, 0, 0, false, 0⟩ else .between

theorem step?_zero (negative : Bool) : step? (signState negative) (some '0') =
    some ([], .number ⟨.zero, negative, 0, 0, false, 0⟩) := by
  cases negative <;> rfl

theorem scans_whole {c : Char} (hc : c.isDigit = true) (hzero : c ≠ '0')
    (h : ∀ c ∈ cs, c.isDigit = true) :
    Scans (signState negative) (c :: cs) [] (.number (wholeScan negative (c :: cs))) := by
  have hfirst : step? (signState negative) (some c) =
      some ([], .number (wholeScan negative [c])) := by
    rcases isDigit_cases hc with rfl | rfl | rfl | rfl | rfl | rfl | rfl | rfl | rfl | rfl
    · exact absurd rfl hzero
    all_goals cases negative <;> rfl
  refine .silent hfirst (scans_digits ?_ h [c])
  intro read c hc
  simp [wholeScan, NumberScan.extend?, digit?_of_isDigit hc, ofDigitChars_snoc]

theorem scans_fraction {part : NumberPart} (hpart : part = .zero ∨ part = .whole) (n : Nat)
    (hne : cs ≠ []) (h : ∀ c ∈ cs, c.isDigit = true) :
    Scans (.number ⟨part, negative, n, 0, false, 0⟩) ('.' :: cs) []
      (.number (fractionScan negative n cs)) := by
  obtain ⟨c, rest, rfl⟩ := List.exists_cons_of_ne_nil hne
  obtain ⟨hc, hrest⟩ := List.forall_mem_cons.mp h
  have hpoint : step? (.number ⟨part, negative, n, 0, false, 0⟩) (some '.') =
      some ([], .number ⟨.point, negative, n, 0, false, 0⟩) := by
    rcases hpart with rfl | rfl <;> rfl
  have hfirst : step? (.number ⟨.point, negative, n, 0, false, 0⟩) (some c) =
      some ([], .number (fractionScan negative n [c])) := by
    simp [step?, NumberScan.extend?, digit?_of_isDigit hc, fractionScan, Nat.ofDigitChars_cons,
      Nat.mul_comm]
  refine .silent hpoint (.silent hfirst (scans_digits ?_ hrest [c]))
  intro read c hc
  simp [fractionScan, NumberScan.extend?, digit?_of_isDigit hc, ofDigitChars_snoc]

theorem numeral?_fractionScan (negative : Bool) (n : Nat) (cs : List Char) :
    (fractionScan negative n cs).numeral? =
      some ⟨negative, Nat.ofDigitChars 10 cs n, -(cs.length : Int), false⟩ := by
  simp [fractionScan, NumberScan.numeral?]

theorem scans_power {part : NumberPart} (hpart : part = .zero ∨ part = .whole ∨ part = .fraction)
    (digits places : Nat) (powerNegative : Bool) {c : Char} (hc : c.isDigit = true)
    (h : ∀ c ∈ cs, c.isDigit = true) :
    Scans (.number ⟨part, negative, digits, places, false, 0⟩)
      ('e' :: (if powerNegative then '-' else '+') :: c :: cs) []
      (.number (powerScan negative digits places powerNegative (c :: cs))) := by
  have hmark : step? (.number ⟨part, negative, digits, places, false, 0⟩) (some 'e') =
      some ([], .number ⟨.mark, negative, digits, places, false, 0⟩) := by
    rcases hpart with rfl | rfl | rfl <;> rfl
  have hsign : step? (.number ⟨.mark, negative, digits, places, false, 0⟩)
      (some (if powerNegative then '-' else '+')) =
        some ([], .number ⟨.markSign, negative, digits, places, powerNegative, 0⟩) := by
    cases powerNegative <;> rfl
  have hfirst : step? (.number ⟨.markSign, negative, digits, places, powerNegative, 0⟩) (some c) =
      some ([], .number (powerScan negative digits places powerNegative [c])) := by
    simp [step?, NumberScan.extend?, digit?_of_isDigit hc, powerScan, Nat.ofDigitChars_cons]
  refine .silent hmark (.silent hsign (.silent hfirst (scans_digits ?_ h [c])))
  intro read c hc
  simp [powerScan, NumberScan.extend?, digit?_of_isDigit hc, ofDigitChars_snoc]

theorem exists_digitChars {n : Nat} (h : 0 < n) :
    ∃ c cs, Json.digitChars n = c :: cs ∧ c ≠ '0' := by
  induction n using Nat.base_induction 10 (by decide) with
  | single n hn =>
      have hall : ∀ k < 10, 0 < k → k.digitChar ≠ '0' := by decide
      exact ⟨n.digitChar, [], Nat.toDigits_of_lt_base hn, hall n hn h⟩
  | digit n k hk hn ih =>
      obtain ⟨c, cs, hcs, hc⟩ := ih hn
      refine ⟨c, cs ++ Nat.toDigits 10 k, ?_, hc⟩
      rw [Json.digitChars, ← Nat.toDigits_append_toDigits (by decide) hn hk]
      exact congrArg (· ++ Nat.toDigits 10 k) hcs

theorem spells_number {scan : NumberScan} {value : Numeral}
    (h : Scans (signState negative) cs [] (.number scan)) (hvalue : scan.numeral? = some value) :
    Spells (if negative then '-' :: cs else cs) [.number value] := by
  have hfinish : finish? (.number scan) = some [.number value] := by
    rw [finish?, hvalue]
    rfl
  refine ⟨.number scan, [], [.number value], ?_, hfinish, rfl⟩
  cases negative with
  | false => exact h
  | true => exact .silent rfl h

theorem scans_digitChars (negative : Bool) (n : Nat) : ∃ scan : NumberScan,
    Scans (signState negative) (Json.digitChars n) [] (.number scan) ∧
      scan.numeral? = some ⟨negative, n, 0, true⟩ := by
  rcases Nat.eq_zero_or_pos n with rfl | hpos
  · exact ⟨⟨.zero, negative, 0, 0, false, 0⟩, .single (step?_zero negative), rfl⟩
  · obtain ⟨c, cs, hcs, hc⟩ := exists_digitChars hpos
    have hdigits := isDigit_digitChars n
    rw [hcs, List.forall_mem_cons] at hdigits
    refine ⟨wholeScan negative (c :: cs), ?_, ?_⟩
    · rw [hcs]
      exact scans_whole hdigits.1 hc hdigits.2
    · rw [← hcs, wholeScan, Json.digitChars, Nat.ofDigitChars_ten_toDigits]
      rfl

theorem spells_intChars (n : WordInt) : Spells (Json.intChars n.val) [.number n.numeral] := by
  obtain ⟨scan, hscan, hvalue⟩ := scans_digitChars (n.val < 0) n.val.natAbs
  have hspells := spells_number hscan hvalue
  simp only [decide_eq_true_eq] at hspells
  exact hspells

theorem numeral?_powerScan (negative : Bool) (digits places : Nat) (power : Int) :
    (powerScan negative digits places (power < 0) (Json.digitChars power.natAbs)).numeral? =
      some ⟨negative, digits, power - places, false⟩ := by
  have hvalue : Nat.ofDigitChars 10 (Json.digitChars power.natAbs) 0 = power.natAbs :=
    Nat.ofDigitChars_ten_toDigits
  have hpower : (if decide (power < 0) then -(power.natAbs : Int) else power.natAbs) = power := by
    simp only [decide_eq_true_eq]
    split <;> omega
  rw [powerScan, NumberScan.numeral?, hvalue]
  simp only [hpower]

section Decimal

variable {c : Char} (hfirst : c.isDigit = true) (hzero : c ≠ '0')
  (hrest : ∀ c ∈ cs, c.isDigit = true)

include hfirst hzero hrest

theorem scans_pointed {more : List Char} (hne : more ≠ []) (hmore : ∀ c ∈ more, c.isDigit = true) :
    Scans (signState negative) (c :: cs ++ '.' :: more) []
      (.number (fractionScan negative (Nat.ofDigitChars 10 (c :: cs) 0) more)) :=
  (scans_whole hfirst hzero hrest).append (scans_fraction (.inr rfl) _ hne hmore)

theorem scans_exponential (negative : Bool) (power : Int) : ∃ scan : NumberScan,
    Scans (signState negative)
      (Json.pointed (c :: cs) ++
        'e' :: (if power < 0 then '-' else '+') :: Json.digitChars power.natAbs) []
      (.number scan) ∧
      scan.numeral? =
        some ⟨negative, Nat.ofDigitChars 10 (c :: cs) 0, power - cs.length, false⟩ := by
  obtain ⟨p, ps, hps⟩ : ∃ p ps, Json.digitChars power.natAbs = p :: ps :=
    List.exists_cons_of_ne_nil Nat.toDigits_ne_nil
  have hpower := isDigit_digitChars power.natAbs
  rw [hps, List.forall_mem_cons] at hpower
  have hsign : (if power < 0 then '-' else '+') = if decide (power < 0) then '-' else '+' := by
    simp
  have hnumeral := numeral?_powerScan negative (Nat.ofDigitChars 10 (c :: cs) 0)
  rw [hsign]
  rcases cs with _ | ⟨next, more⟩
  · refine ⟨_, ?_, hnumeral 0 power⟩
    rw [hps]
    exact (scans_whole hfirst hzero hrest).append
      (scans_power (.inr (.inl rfl)) _ _ _ hpower.1 hpower.2)
  · refine ⟨_, ?_, hnumeral (next :: more).length power⟩
    rw [hps]
    have hpointed : Scans (signState negative) (c :: '.' :: next :: more) [] _ :=
      scans_pointed hfirst hzero (List.forall_mem_nil _) (List.cons_ne_nil next more) hrest
    exact hpointed.append (scans_power (.inr (.inr rfl)) _ _ _ hpower.1 hpower.2)

omit hzero in
theorem scans_small (negative : Bool) (zeros : Nat) : ∃ scan : NumberScan,
    Scans (signState negative) ('0' :: '.' :: List.replicate zeros '0' ++ c :: cs) []
      (.number scan) ∧
      scan.numeral? = some ⟨negative, Nat.ofDigitChars 10 (c :: cs) 0,
        -(zeros + (cs.length + 1) : Int), false⟩ := by
  have hall := List.forall_mem_append.mpr
    ⟨isDigit_zeros zeros, List.forall_mem_cons.mpr ⟨hfirst, hrest⟩⟩
  refine ⟨fractionScan negative 0 (List.replicate zeros '0' ++ c :: cs), ?_, ?_⟩
  · exact .silent (step?_zero negative) (scans_fraction (.inl rfl) 0 (by simp) hall)
  · have hlength : ((List.replicate zeros '0' ++ c :: cs).length : Int) =
        zeros + (cs.length + 1) := by simp
    rw [numeral?_fractionScan, hlength, Nat.ofDigitChars_append, Nat.ofDigitChars_replicate_zero,
      Nat.mul_zero]

theorem scans_inside (negative : Bool) {whole : Nat} (h : whole < cs.length) :
    ∃ scan : NumberScan,
      Scans (signState negative)
        ((c :: cs).take (whole + 1) ++ '.' :: (c :: cs).drop (whole + 1)) [] (.number scan) ∧
        scan.numeral? = some ⟨negative, Nat.ofDigitChars 10 (c :: cs) 0,
          (whole : Int) - cs.length, false⟩ := by
  rw [List.take_succ_cons, List.drop_succ_cons]
  refine ⟨_, scans_pointed hfirst hzero (fun c hc => hrest c (List.mem_of_mem_take hc)) ?_
    (fun c hc => hrest c (List.mem_of_mem_drop hc)), ?_⟩
  · exact List.ne_nil_of_length_pos (by rw [List.length_drop]; omega)
  · have hexponent : -((cs.drop whole).length : Int) = whole - cs.length := by
      rw [List.length_drop]
      omega
    rw [numeral?_fractionScan, hexponent, ← Nat.ofDigitChars_append, List.cons_append,
      List.take_append_drop]

theorem scans_large (negative : Bool) (zeros : Nat) : ∃ scan : NumberScan,
    Scans (signState negative) (c :: cs ++ List.replicate zeros '0' ++ ['.', '0']) []
      (.number scan) ∧
      scan.numeral? = some ⟨negative, Nat.ofDigitChars 10 (c :: cs) 0 * 10 ^ (zeros + 1), -1,
        false⟩ := by
  have hall := List.forall_mem_append.mpr ⟨hrest, isDigit_zeros zeros⟩
  refine ⟨_, scans_pointed hfirst hzero hall (List.cons_ne_nil '0' []) (isDigit_zeros 1), ?_⟩
  have hdigits : Nat.ofDigitChars 10 ['0']
      (Nat.ofDigitChars 10 (c :: (cs ++ List.replicate zeros '0')) 0) =
        Nat.ofDigitChars 10 (c :: cs) 0 * 10 ^ (zeros + 1) := by
    rw [← List.cons_append, Nat.ofDigitChars_append, Nat.ofDigitChars_replicate_zero,
      Nat.ofDigitChars_cons, Nat.ofDigitChars_nil, Nat.sub_self, Nat.add_zero]
    ring
  rw [numeral?_fractionScan, hdigits]
  rfl

end Decimal

/-- A decimal in positional notation or with an exponent, after the sign. -/
theorem scans_decimalChars (negative : Bool) {decimal : Double.Decimal} (h : 0 < decimal.digits) :
    ∃ scan : NumberScan,
      Scans (signState negative) (Json.decimalChars Json.doubleLayout decimal) [] (.number scan) ∧
        scan.numeral? = some (decimal.numeral negative) := by
  obtain ⟨c, cs, hcs, hzero⟩ := exists_digitChars h
  have hdigits := isDigit_digitChars decimal.digits
  have hvalue : Nat.ofDigitChars 10 (c :: cs) 0 = decimal.digits := by
    rw [← hcs]
    exact Nat.ofDigitChars_ten_toDigits
  rw [hcs, List.forall_mem_cons] at hdigits
  obtain ⟨hfirst, hrest⟩ := hdigits
  have hlength : ((c :: cs).length : Int) = cs.length + 1 := by simp
  rw [Json.decimalChars, Double.Decimal.numeral, hcs, hlength]
  have hleast : Json.doubleLayout.leastPositional = -5 := rfl
  have hgreatest : Json.doubleLayout.greatestPositional = 15 := rfl
  generalize hleading : decimal.exponent + ((cs.length : Int) + 1) - 1 = leading
  by_cases hmark : leading < Json.doubleLayout.leastPositional ∨
      Json.doubleLayout.greatestPositional < leading
  · rw [if_pos hmark, if_neg (show ¬ (0 ≤ decimal.exponent ∧ leading ≤ 15) by omega), ← hvalue]
    have hexponent : decimal.exponent = leading - cs.length := by omega
    rw [hexponent]
    exact scans_exponential hfirst hzero hrest negative leading
  · rw [if_neg hmark]
    by_cases hsmall : leading < 0
    · rw [if_pos hsmall, if_neg (by omega), ← hvalue]
      have hexponent : decimal.exponent =
          -(((leading.natAbs - 1 : Nat) : Int) + (cs.length + 1)) := by omega
      rw [hexponent]
      exact scans_small hfirst hrest negative (leading.natAbs - 1)
    · rw [if_neg hsmall]
      by_cases hinside : decimal.exponent < 0
      · rw [if_pos hinside, if_neg (by omega), ← hvalue]
        have hexponent : decimal.exponent = (leading.natAbs : Int) - cs.length := by omega
        rw [hexponent]
        exact scans_inside hfirst hzero hrest negative (by omega)
      · rw [if_neg hinside, if_pos (by omega), ← hvalue]
        exact scans_large hfirst hzero hrest negative decimal.exponent.natAbs

/-- A printed double is read as a number of the value of its shortest decimal. -/
theorem spells_doubleChars (d : Double) :
    Spells (Json.doubleChars d) [.number (d.shortest.numeral d.negative)] := by
  obtain ⟨scan, hscan, hnumeral⟩ : ∃ scan : NumberScan,
      Scans (signState d.negative) (Json.decimalChars Json.doubleLayout d.shortest) []
        (.number scan) ∧ scan.numeral? = some (d.shortest.numeral d.negative) := by
    by_cases hrank : d.rank.val = 0
    · rw [Double.shortest, if_pos hrank]
      refine ⟨fractionScan d.negative 0 ['0'], ?_, rfl⟩
      exact .silent (step?_zero d.negative)
        (scans_fraction (.inl rfl) 0 (List.cons_ne_nil _ _) (isDigit_zeros 1))
    · exact scans_decimalChars d.negative (Double.digits_shortest_pos hrank)
  exact spells_number hscan hnumeral

end Lexer

theorem WordInt.json?_numeral (n : WordInt) : n.numeral.json? = some (.int n) := by
  have hvalue : (if n.numeral.negative then -(n.numeral.digits : Int) else n.numeral.digits) =
      n.val := by
    simp only [numeral, decide_eq_true_eq]
    split <;> omega
  have hzero : ¬ (n.numeral.negative = true ∧ n.numeral.digits = 0) := by
    simp only [numeral, decide_eq_true_eq]
    omega
  have hrange : -0x8000000000000000 ≤ n.val ∧ n.val < 0x10000000000000000 := ⟨n.lower, n.upper⟩
  rw [← hvalue] at hrange
  rw [Numeral.json?, dif_pos ⟨rfl, hzero, hrange⟩]
  simp only [hvalue]

theorem Double.json?_of_value {d : Double} {digits : Nat} {exponent : Int}
    (h : Decimal.value ⟨digits, exponent⟩ = d.shortest.value) :
    Numeral.json? ⟨d.negative, digits, exponent, false⟩ = some (.double d) := by
  rw [Numeral.json?, dif_neg (fun hintegral => Bool.false_ne_true hintegral.1)]
  exact congrArg (Option.map Json.double) (ofDecimal?_of_value h)

/-- The number that is written for a double is this double. -/
theorem Double.json?_numeral (d : Double) :
    (d.shortest.numeral d.negative).json? = some (.double d) := by
  rw [Decimal.numeral]
  split
  · rename_i hwhole
    apply json?_of_value
    obtain ⟨n, hn⟩ := Int.eq_ofNat_of_zero_le hwhole.1
    rw [Decimal.value, Decimal.value, hn, zpow_natCast, Int.natAbs_natCast]
    push_cast
    rw [pow_succ, zpow_neg, zpow_one]
    field_simp
  · exact json?_of_value rfl

end StoredProcedure
