import StoredProcedure.Json.Document
import StoredProcedure.Json.Printer
import StoredProcedure.Proofs.Result

/-!
How the lexer reads texts: words and strings, and what may follow a number.

A number is complete only when a symbol follows that does not continue it. So a text of tokens may
end inside a number, and one of a few symbols has to follow it.
-/

namespace StoredProcedure.Lexer

/-- Characters lead the lexer from a state to another, and complete tokens on the way. -/
inductive Scans : State → List Char → List Token → State → Prop
  | nil {s : State} : Scans s [] [] s
  | cons {s t u : State} {c : Char} {cs : List Char} {first rest : List Token}
      (h : step? s (some c) = some (first, t)) (hrest : Scans t cs rest u) :
      Scans s (c :: cs) (first ++ rest) u

namespace Scans

variable {s t u : State} {cs more : List Char} {tokens rest : List Token}

theorem append (h : Scans s cs tokens t) (hmore : Scans t more rest u) :
    Scans s (cs ++ more) (tokens ++ rest) u := by
  induction h with
  | nil => exact hmore
  | cons hstep _ ih =>
      rw [List.append_assoc]
      exact .cons hstep (ih hmore)

theorem silent {c : Char} (h : step? s (some c) = some ([], t)) (hrest : Scans t cs tokens u) :
    Scans s (c :: cs) tokens u :=
  .cons h hrest

theorem single {c : Char} (h : step? s (some c) = some (tokens, t)) : Scans s [c] tokens t := by
  have hscan := Scans.cons h .nil
  rwa [List.append_nil] at hscan

theorem foldlM_eq (h : Scans s cs tokens t) (before : List Token) :
    (cs.map some).foldlM Run.step? ⟨s, before⟩ = some ⟨t, tokens.reverse ++ before⟩ := by
  induction h generalizing before with
  | nil => rfl
  | cons hstep _ ih =>
      rw [List.map_cons, List.foldlM_cons, Run.step?, hstep]
      simp only [Option.bind_eq_bind, Option.bind_some, Option.pure_def, ih, List.reverse_append,
        List.append_assoc]

end Scans

/-- The text of some tokens: it starts between tokens and may end where it ends. -/
def Spells (cs : List Char) (tokens : List Token) : Prop :=
  ∃ s done pending, Scans .between cs done s ∧ finish? s = some pending ∧ tokens = done ++ pending

theorem tokens?_of_spells {cs : List Char} {tokens : List Token} (h : Spells cs tokens) :
    tokens? (cs.map some) = some tokens := by
  obtain ⟨s, done, pending, hscan, hfinish, rfl⟩ := h
  rw [tokens?, hscan.foldlM_eq]
  simp [hfinish]

/-- The symbol separates tokens, also numbers from what follows them, and makes tokens itself. -/
structure Separates (c : Char) (tokens : List Token) : Prop where
  start : start? c = some (tokens, .between)
  digit : digit? c = none
  point : c ≠ '.'
  mark : ¬ (c = 'e' ∨ c = 'E')

theorem NumberScan.extend?_eq_none {c : Char} {tokens : List Token} (h : Separates c tokens)
    {scan : NumberScan} {value : Numeral} (hvalue : scan.numeral? = some value) :
    scan.extend? c = none := by
  rw [extend?, h.digit]
  rw [numeral?] at hvalue
  cases hpart : scan.part with
  | zero | whole => simp only [if_neg h.point, if_neg h.mark]
  | fraction => simp only [if_neg h.mark]
  | power => rfl
  | minus | point | mark | markSign => simp [hpart] at hvalue

namespace Spells

variable {cs more : List Char} {tokens rest : List Token}

theorem nil : Spells [] [] :=
  ⟨.between, [], [], .nil, rfl, rfl⟩

theorem of_scans (h : Scans .between cs tokens .between) : Spells cs tokens :=
  ⟨.between, tokens, [], h, rfl, (List.append_nil _).symm⟩

theorem after (hmore : Spells more rest) (h : Scans .between cs tokens .between) :
    Spells (cs ++ more) (tokens ++ rest) := by
  obtain ⟨s, done, pending, hscan, hfinish, rfl⟩ := hmore
  exact ⟨s, tokens ++ done, pending, h.append hscan, hfinish, (List.append_assoc _ _ _).symm⟩

theorem scans_separator {c : Char} {made : List Token} (h : Spells cs tokens)
    (hc : Separates c made) : Scans .between (cs ++ [c]) (tokens ++ made) .between := by
  obtain ⟨s, done, pending, hscan, hfinish, rfl⟩ := h
  have hstep : step? s (some c) = some (pending ++ made, .between) := by
    cases s with
    | between =>
        obtain rfl := Option.some.inj hfinish
        exact hc.start
    | number scan =>
        obtain ⟨value, hvalue, rfl⟩ := Option.map_eq_some_iff.mp hfinish
        rw [step?, NumberScan.extend?_eq_none hc hvalue]
        simp [hvalue, hc.start]
    | word expected token => cases hfinish
    | text scan => cases hfinish
  rw [List.append_assoc]
  exact hscan.append (.single hstep)

end Spells

section Text

/-- A string of which these characters have been read, last first. -/
abbrev within (chars : List Char) : State :=
  .text ⟨.plain, chars, true, none⟩

theorem hexDigit?_hexDigit (n : Nat) : hexDigit? (Json.hexDigit n) = some (n % 16) := by
  have hall : ∀ k < 16, hexDigit? ((Nat.toDigits 16 k).headD '0') = some k := by decide
  exact hall (n % 16) (Nat.mod_lt n (by decide))

theorem scans_control {c : Char} (h : c.toNat < 0x20) (chars : List Char) :
    Scans (within chars)
      ['\\', 'u', '0', '0', Json.hexDigit (c.toNat / 16), Json.hexDigit c.toNat] []
      (within (c :: chars)) := by
  have hfirst : step? (.text ⟨.code 2 0, chars, true, none⟩)
      (some (Json.hexDigit (c.toNat / 16))) =
        some ([], .text ⟨.code 1 (c.toNat / 16), chars, true, none⟩) := by
    have hsmall : c.toNat / 16 % 16 = c.toNat / 16 := by omega
    simp [step?, TextScan.extend?, hexDigit?_hexDigit, hsmall]
  have hsecond : step? (.text ⟨.code 1 (c.toNat / 16), chars, true, none⟩)
      (some (Json.hexDigit c.toNat)) = some ([], within (c :: chars)) := by
    have hcode : c.toNat / 16 * 16 + c.toNat % 16 = c.toNat := by omega
    have hpush : TextScan.pushCode ⟨.code 1 (c.toNat / 16), chars, true, none⟩ c.toNat =
        ⟨.plain, c :: chars, true, none⟩ := by
      rw [TextScan.pushCode, if_neg (by omega), if_neg (by omega), Char.ofNat_toNat]
      rfl
    simp [step?, TextScan.extend?, hexDigit?_hexDigit, hcode, hpush]
  exact .silent rfl (.silent rfl (.silent rfl (.silent rfl (.silent hfirst (.single hsecond)))))

theorem scans_escape (c : Char) (chars : List Char) :
    Scans (within chars) (Json.escape c) [] (within (c :: chars)) := by
  fun_cases Json.escape c with
  | case8 _ hquote hbackslash _ _ _ _ _ hcontrol => exact scans_control hcontrol chars
  | case9 _ hquote hbackslash _ _ _ _ _ hcontrol =>
      have hquote : c ≠ '"' := hquote
      have hbackslash : c ≠ '\\' := hbackslash
      apply Scans.single
      simp [step?, TextScan.extend?, TextScan.push, hquote, hbackslash, hcontrol]
  | _ => exact .silent rfl (.single rfl)

theorem scans_text (text : List Char) (chars : List Char) :
    Scans (within chars) (text.flatMap Json.escape) [] (within (text.reverse ++ chars)) := by
  induction text generalizing chars with
  | nil => exact .nil
  | cons c rest ih =>
      rw [List.flatMap_cons, List.reverse_cons, List.append_assoc]
      exact (scans_escape c chars).append (ih (c :: chars))

/-- A printed string is read back. -/
theorem scans_quoted (text : String) :
    Scans .between (Json.quotedChars text) [.string (some text)] .between := by
  have hclose : step? (within (text.toList.reverse ++ [])) (some '"') =
      some ([.string (some text)], .between) := by
    simp [step?, TextScan.text?]
  exact .silent rfl ((scans_text text.toList []).append (.single hclose))

end Text

theorem scans_null : Scans .between ['n', 'u', 'l', 'l'] [.null] .between :=
  .silent rfl (.silent rfl (.silent rfl (.single rfl)))

theorem scans_true : Scans .between ['t', 'r', 'u', 'e'] [.bool true] .between :=
  .silent rfl (.silent rfl (.silent rfl (.single rfl)))

theorem scans_false : Scans .between ['f', 'a', 'l', 's', 'e'] [.bool false] .between :=
  .silent rfl (.silent rfl (.silent rfl (.silent rfl (.single rfl))))

end StoredProcedure.Lexer
