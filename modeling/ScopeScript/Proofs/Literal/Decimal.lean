import Mathlib.Tactic.IntervalCases
import ScopeScript.Syntax.Literal

/-!
# Decimal text as a literal

A word in decimal is a literal of the language unless it is negative, and it is read as the word.

* `Text.eq_zero_of_head?_digits`: a zero leads the digits of zero alone.
* `Literal.isWellFormed_of_digits`: digits without underscores are well formed.

Main statement:

* `Literal.read?_decimal`: the decimal text of a word that is not negative is read as the word.
-/

namespace ScopeScript

namespace Text

/-- A number has a digit. -/
theorem digits_ne_nil (n : Nat) : digits n ≠ [] :=
  Nat.toDigits_ne_nil

/-- A zero leads the digits of zero alone. -/
theorem eq_zero_of_head?_digits {n : Nat} (h : (digits n).head? = some '0') : n = 0 := by
  induction n using Nat.strongRecOn with
  | ind n ih =>
    rcases Nat.lt_or_ge n 10 with hn | hn
    · rw [digits, Nat.toDigits_of_lt_base hn] at h
      interval_cases n <;> first | rfl | exact absurd h (by decide)
    · -- The leading digit of a longer number leads the number without its last digit.
      rw [digits, Nat.toDigits_of_base_le (by decide) hn, ← digits, List.head?_append,
        List.head?_eq_some_head (digits_ne_nil _), Option.some_or] at h
      have hzero := ih (n / 10) (by omega) ((List.head?_eq_some_head (digits_ne_nil _)).trans h)
      omega

end Text

namespace Literal

/-- Without an underscore no two stand together. -/
theorem hasDoubleUnderscore_of_not_mem {cs : List Char} (h : '_' ∉ cs) :
    hasDoubleUnderscore cs = false := by
  induction cs with
  | nil => rfl
  | cons c cs ih =>
    obtain ⟨hc, hcs⟩ := not_or.1 (mt List.mem_cons.2 h)
    have hne : (c == '_') = false := beq_false_of_ne (Ne.symm hc)
    rw [hasDoubleUnderscore, hne, Bool.false_and, Bool.false_or, ih hcs]

/-- Digits are well formed. -/
theorem isWellFormed_of_digits {ds : List Char} (hne : ds ≠ [])
    (h : ∀ c ∈ ds, c.isDigit = true) : isWellFormed ds = true := by
  have hmem : '_' ∉ ds := fun hmem => absurd (h '_' hmem) (by decide)
  have hall : ds.all (fun c => c.isDigit || c == '_') = true :=
    List.all_eq_true.2 fun c hc => by rw [h c hc, Bool.true_or]
  have hhead : ds.head? ≠ some '_' := fun hhead => hmem (List.mem_of_head? hhead)
  have hlast : ds.getLast? ≠ some '_' := fun hlast => hmem (List.mem_of_getLast? hlast)
  simp [isWellFormed, hne, hall, hhead, hlast, hasDoubleUnderscore_of_not_mem hmem]

/-- No zero leads further digits of a number. -/
theorem hasLeadingZero_digits (n : Nat) : hasLeadingZero (Text.digits n) = false := by
  by_cases h : (Text.digits n).head? = some '0'
  · obtain rfl := Text.eq_zero_of_head?_digits h
    rfl
  · simp [hasLeadingZero, h]

/-- The decimal text of a word that is not negative is read as the word. -/
theorem read?_decimal {n : Int64} (hn : ¬ n < 0) : read? (Text.decimal n.toInt) = some n := by
  have hpos : 0 ≤ n.toInt := by
    rw [Int64.lt_iff_toInt_lt] at hn
    exact Int.not_lt.1 hn
  obtain ⟨k, hk⟩ := Int.eq_ofNat_of_zero_le hpos
  have hdigits : ∀ c ∈ Text.digits k, c.isDigit = true := fun _ => Text.isDigit_of_mem_digits
  have hfilter : (Text.digits k).filter (· != '_') = Text.digits k := by
    refine List.filter_eq_self.2 fun c hc => ?_
    rw [bne_iff_ne]
    rintro rfl
    exact absurd (hdigits '_' hc) (by decide)
  have hdecimal : (Text.decimal n.toInt).toList = Text.digits k := by
    rw [hk]
    exact String.toList_ofList
  rw [read?_eq_some_iff_tests, hdecimal, hfilter, Text.valueOf_digits, ← hk]
  exact ⟨isWellFormed_of_digits (Text.digits_ne_nil k) hdigits, hasLeadingZero_digits k,
    Word.ofInt?_toInt n⟩

end Literal

end ScopeScript
