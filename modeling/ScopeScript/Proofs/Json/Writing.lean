import ScopeScript.Json.Writer
import ScopeScript.Proofs.Json.Grammar
import ScopeScript.Proofs.Literal.Decimal

/-!
# What is written is JSON

Integers and strings are written as the grammar has them: decimal text is a number with the value
that was written, and a quoted text is a string that stands for the text.

* `characters_escapeChar`: an escaped character is a part that stands for the character.

Main statements:

* `value_decimal`: an integer in decimal is a number of that value.
* `value_quote`: a quoted text is a string of that text.
-/

namespace ScopeScript.Json.Grammar

/-! ### Integers -/

/-- The digits of a number are an integer part. -/
theorem whole_digits (n : Nat) : Whole (Text.digits n) := by
  have hdigits : ∀ c ∈ Text.digits n, c.isDigit = true := fun _ => Text.isDigit_of_mem_digits
  obtain ⟨c, rest, hrest⟩ := List.exists_cons_of_ne_nil (Text.digits_ne_nil n)
  by_cases hzero : c = '0'
  · -- Only the number zero begins with a zero.
    have hn : n = 0 := Text.eq_zero_of_head?_digits (by rw [hrest, hzero, List.head?_cons])
    rw [hn]
    exact .zero
  · rw [hrest] at hdigits ⊢
    obtain ⟨hc, hds⟩ := List.forall_mem_cons.1 hdigits
    exact .digits hc hzero hds

/-- An integer in decimal is a number of that value. -/
theorem value_decimal (z : Int) : Value (Text.decimal z).toList (.number (some z)) := by
  cases z with
  | ofNat n =>
    have hnumber := Number.mk false (whole_digits n) .absent .absent
    have hvalue : integerOf false (Text.digits n) ([] ++ []) = some (Int.ofNat n) := by
      simp [integerOf]
    rw [hvalue, List.append_nil, List.append_nil] at hnumber
    rw [Text.decimal, String.toList_ofList]
    exact .number hnumber
  | negSucc n =>
    have hnumber := Number.mk true (whole_digits (n + 1)) .absent .absent
    have hne : Text.digits (n + 1) ≠ ['0'] := by
      intro h
      have hzero := Text.eq_zero_of_head?_digits (n := n + 1) (by rw [h, List.head?_cons])
      cases hzero
    have hvalue : integerOf true (Text.digits (n + 1)) ([] ++ []) = some (Int.negSucc n) := by
      simp [integerOf, hne, Int.negSucc_eq]
    rw [hvalue, List.append_nil, List.append_nil] at hnumber
    rw [Text.decimal, String.toList_ofList]
    exact .number hnumber

/-! ### Strings -/

/-- A hexadecimal digit is read as the number that it was written for. -/
theorem hexValue?_hexDigit : ∀ n < 16, hexValue? (hexDigit n) = some n := by
  decide

/-- An escaped character is a part of a string that stands for the character. -/
theorem characters_escapeChar (c : Char) {cs : List Char} {ps : List Part}
    (h : Characters cs ps) :
    ∃ part, Characters (escapeChar c ++ cs) (part :: ps) ∧
      ∀ qs, Part.chars? (part :: qs) = (Part.chars? qs).map (c :: ·) := by
  unfold escapeChar
  split
  · exact ⟨.char '"', .letter rfl h, fun _ => rfl⟩
  · exact ⟨.char '\\', .letter rfl h, fun _ => rfl⟩
  · exact ⟨.char '\x08', .letter rfl h, fun _ => rfl⟩
  · exact ⟨.char '\x0c', .letter rfl h, fun _ => rfl⟩
  · exact ⟨.char '\n', .letter rfl h, fun _ => rfl⟩
  · exact ⟨.char '\r', .letter rfl h, fun _ => rfl⟩
  · exact ⟨.char '\t', .letter rfl h, fun _ => rfl⟩
  · next hquote hslash _ _ _ _ _ =>
    split
    · next hcontrol =>
      have hzero : hexValue? '0' = some 0 := rfl
      have hunit := Characters.unit hzero hzero (hexValue?_hexDigit (c.toNat / 16) (by omega))
        (hexValue?_hexDigit (c.toNat % 16) (by omega)) h
      have hvalue : 16 * (16 * (16 * 0 + 0) + c.toNat / 16) + c.toNat % 16 = c.toNat := by omega
      rw [hvalue] at hunit
      refine ⟨.unit c.toNat, hunit, fun qs => ?_⟩
      -- A control character stands far below the surrogates.
      have hhigh : isHigh c.toNat = false :=
        Bool.and_eq_false_iff.2 (.inl (decide_eq_false (by omega)))
      have hlow : isLow c.toNat = false :=
        Bool.and_eq_false_iff.2 (.inl (decide_eq_false (by omega)))
      rw [Part.chars?_of_single hhigh hlow, Char.ofNat_toNat]
    · next hcontrol =>
      exact ⟨.char c, .plain hquote hslash (Nat.not_lt.1 hcontrol) h, fun _ => rfl⟩

/-- The escaped characters of a text are parts that stand for the text. -/
theorem exists_characters_escaped (cs : List Char) :
    ∃ ps, Characters (cs.flatMap escapeChar) ps ∧ Part.chars? ps = some cs := by
  induction cs with
  | nil => exact ⟨[], .nil, rfl⟩
  | cons c cs ih =>
    obtain ⟨ps, hps, hchars⟩ := ih
    obtain ⟨part, hpart, hc⟩ := characters_escapeChar c hps
    exact ⟨part :: ps, hpart, by rw [hc, hchars, Option.map_some]⟩

/-- A quoted text is a string of that text. -/
theorem value_quote (s : String) : Value (quote s).toList (.string (some s)) := by
  obtain ⟨ps, hps, hchars⟩ := exists_characters_escaped s.toList
  have htext : Part.text? ps = some s := by
    rw [Part.text?, hchars, Option.map_some, String.ofList_toList]
  rw [quote, String.toList_ofList, ← htext]
  exact .string hps

end ScopeScript.Json.Grammar
