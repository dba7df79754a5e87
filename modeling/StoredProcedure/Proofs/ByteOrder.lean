import Mathlib.Algebra.Group.Nat.Defs
import StoredProcedure.NameSet

namespace StoredProcedure.Text

/-- The first list is below the second one at the first place where they part, before either
ends. -/
def PartsBelow (xs ys : List UInt8) : Prop :=
  ∃ (common : List UInt8) (x y : UInt8) (rest more : List UInt8),
    xs = common ++ x :: rest ∧ ys = common ++ y :: more ∧ x < y

namespace PartsBelow

theorem head {x y : UInt8} (h : x < y) (xs ys : List UInt8) : PartsBelow (x :: xs) (y :: ys) :=
  ⟨[], x, y, xs, ys, rfl, rfl, h⟩

theorem cons {xs ys : List UInt8} (x : UInt8) (h : PartsBelow xs ys) :
    PartsBelow (x :: xs) (x :: ys) := by
  obtain ⟨common, y, z, rest, more, rfl, rfl, hlt⟩ := h
  exact ⟨x :: common, y, z, rest, more, rfl, rfl, hlt⟩

theorem append_lt {xs ys : List UInt8} (h : PartsBelow xs ys) (more others : List UInt8) :
    xs ++ more < ys ++ others := by
  obtain ⟨common, x, y, rest, tail, rfl, rfl, hlt⟩ := h
  rw [List.append_assoc, List.append_assoc]
  exact List.append_left_lt (List.cons_lt_cons_iff.mpr (.inl hlt))

end PartsBelow

theorem ofNat_lt_ofNat {m n : Nat} (h : m < n) (hn : n < 256) : UInt8.ofNat m < UInt8.ofNat n := by
  rw [UInt8.lt_iff_toNat_lt, UInt8.toNat_ofNat', UInt8.toNat_ofNat']
  omega

/-- The last bytes of the encoding of a code point: its digits in base 64, each above 128. -/
def tailBytes : Nat → Nat → List UInt8
  | 0, _ => []
  | n + 1, v => UInt8.ofNat (v / 64 ^ n % 64 + 128) :: tailBytes n v

theorem partsBelow_tailBytes {v w : Nat} (n : Nat) (h : v % 64 ^ n < w % 64 ^ n) :
    PartsBelow (tailBytes n v) (tailBytes n w) := by
  induction n with
  | zero => omega
  | succ n ih =>
      rw [Nat.pow_succ, Nat.mod_mul, Nat.mod_mul] at h
      have hpos : 0 < 64 ^ n := Nat.pow_pos (by decide)
      have hv : v % 64 ^ n < 64 ^ n := Nat.mod_lt _ hpos
      have hw : w % 64 ^ n < 64 ^ n := Nat.mod_lt _ hpos
      rcases Nat.lt_trichotomy (v / 64 ^ n % 64) (w / 64 ^ n % 64) with hlt | heq | hgt
      · exact .head (ofNat_lt_ofNat (by omega) (by omega)) _ _
      · rw [heq] at h
        rw [tailBytes, tailBytes, heq]
        exact .cons _ (ih (by omega))
      · have hle := Nat.mul_le_mul_left (64 ^ n) hgt
        rw [Nat.mul_succ] at hle
        omega

/-- The encoding of a code point with a first byte from `first` on and `n` more bytes. -/
def encodedBytes (first n v : Nat) : List UInt8 :=
  UInt8.ofNat (v / 64 ^ n + first) :: tailBytes n v

theorem partsBelow_encodedBytes {first n v w : Nat} (h : v < w) (hw : w / 64 ^ n + first < 256) :
    PartsBelow (encodedBytes first n v) (encodedBytes first n w) := by
  have hle : v / 64 ^ n ≤ w / 64 ^ n := Nat.div_le_div_right (Nat.le_of_lt h)
  rcases Nat.lt_or_eq_of_le hle with hlt | heq
  · exact .head (ofNat_lt_ofNat (by omega) hw) _ _
  · have hv := Nat.div_add_mod v (64 ^ n)
    have hw := Nat.div_add_mod w (64 ^ n)
    rw [encodedBytes, encodedBytes, heq]
    rw [heq] at hv
    exact .cons _ (partsBelow_tailBytes n (by omega))

/-- The number of bytes after the first one. -/
def tailLength (v : Nat) : Nat :=
  if v ≤ 0x7f then 0 else if v ≤ 0x7ff then 1 else if v ≤ 0xffff then 2 else 3

/-- The least first byte of encodings with that many more bytes. -/
def leastFirst : Nat → Nat
  | 0 => 0
  | 1 => 0xc0
  | 2 => 0xe0
  | _ => 0xf0

theorem codePoint_lt (c : Char) : c.toNat < 0x110000 := by
  rcases c.valid with h | h
  · exact Nat.lt_trans h (by decide)
  · exact h.2

theorem utf8EncodeChar_eq (c : Char) :
    String.utf8EncodeChar c =
      encodedBytes (leastFirst (tailLength c.toNat)) (tailLength c.toNat) c.toNat := by
  have hc := codePoint_lt c
  simp only [String.utf8EncodeChar, show c.val.toNat = c.toNat from rfl, tailLength]
  by_cases h1 : c.toNat ≤ 0x7f
  · simp [h1, encodedBytes, tailBytes, leastFirst]
  · by_cases h2 : c.toNat ≤ 0x7ff
    · have hlead : c.toNat / 64 % 32 = c.toNat / 64 := Nat.mod_eq_of_lt (by omega)
      simp [h1, h2, encodedBytes, tailBytes, leastFirst, hlead]
    · by_cases h3 : c.toNat ≤ 0xffff
      · have hlead : c.toNat / 4096 % 16 = c.toNat / 4096 := Nat.mod_eq_of_lt (by omega)
        simp [h1, h2, h3, encodedBytes, tailBytes, leastFirst, hlead]
      · have hlead : c.toNat / 262144 % 8 = c.toNat / 262144 := Nat.mod_eq_of_lt (by omega)
        simp [h1, h2, h3, encodedBytes, tailBytes, leastFirst, hlead]

theorem partsBelow_utf8EncodeChar {c d : Char} (h : c < d) :
    PartsBelow (String.utf8EncodeChar c) (String.utf8EncodeChar d) := by
  have hlt : c.toNat < d.toNat := h
  have hd := codePoint_lt d
  rw [utf8EncodeChar_eq, utf8EncodeChar_eq]
  by_cases hlength : tailLength c.toNat = tailLength d.toNat
  · rw [hlength]
    apply partsBelow_encodedBytes hlt
    simp only [tailLength, leastFirst]
    grind
  · refine .head (ofNat_lt_ofNat ?_ ?_) _ _
    · simp only [tailLength, leastFirst] at hlength ⊢
      grind
    · simp only [tailLength, leastFirst]
      grind

theorem flatMap_utf8EncodeChar_lt {cs ds : List Char} (h : cs < ds) :
    cs.flatMap String.utf8EncodeChar < ds.flatMap String.utf8EncodeChar := by
  induction h with
  | nil =>
      rename_i d rest
      rw [List.flatMap_nil, List.flatMap_cons]
      obtain ⟨x, xs, hx⟩ := List.exists_cons_of_ne_nil (String.utf8EncodeChar_ne_nil (c := d))
      rw [hx]
      exact .nil
  | rel hlt => exact (partsBelow_utf8EncodeChar hlt).append_lt _ _
  | cons _ ih => exact List.append_left_lt ih

theorem toList_eq_data (bytes : ByteArray) : bytes.toList = bytes.data.toList := by
  have hloop : ∀ (i : Nat) (read : List UInt8),
      ByteArray.toList.loop bytes i read = read.reverse ++ bytes.data.toList.drop i := by
    intro i read
    fun_induction ByteArray.toList.loop bytes i read with
    | case1 i read hi ih =>
        have hdrop := List.drop_eq_getElem_cons (l := bytes.data.toList) (i := i) hi
        have hget : bytes.get! i = bytes.data.toList[i] := getElem!_pos bytes.data i hi
        rw [ih, List.reverse_cons, List.append_assoc, hdrop, hget, List.singleton_append]
    | case2 i read hi =>
        rw [List.drop_eq_nil_of_le (by simpa using hi), List.append_nil]
  exact hloop 0 []

theorem toList_toUTF8 (s : String) :
    s.toUTF8.toList = s.toList.flatMap String.utf8EncodeChar := by
  rw [← String.ofList_toList (s := s), String.toUTF8_eq_toByteArray, String.toByteArray_ofList,
    toList_eq_data, List.utf8Encode, List.toList_data_toByteArray, String.toList_ofList]

/-- Names are ordered like the bytes of their encodings. -/
theorem lt_iff_bytes_lt {s t : String} : s < t ↔ s.toUTF8.toList < t.toUTF8.toList := by
  rw [toList_toUTF8, toList_toUTF8]
  constructor
  · exact fun h => flatMap_utf8EncodeChar_lt h
  · intro h
    apply Decidable.byContradiction
    intro hnot
    by_cases heq : s = t
    · rw [heq] at h
      exact List.lt_irrefl _ h
    · exact List.lt_asymm h (flatMap_utf8EncodeChar_lt (lt_of_not_lt_of_ne hnot heq))

theorem eq_of_bytes_eq {s t : String} (h : s.toUTF8.toList = t.toUTF8.toList) : s = t := by
  apply Decidable.byContradiction
  intro hne
  by_cases hlt : s < t
  · exact List.lt_irrefl _ (h ▸ lt_iff_bytes_lt.mp hlt)
  · exact List.lt_irrefl _ (h ▸ lt_iff_bytes_lt.mp (lt_of_not_lt_of_ne hlt hne))

end StoredProcedure.Text
