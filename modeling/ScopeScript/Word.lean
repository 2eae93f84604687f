/-!
# Machine words

Integers that fit 64 bits with a sign. A result is a word only if its exact value fits.

* `ofInt?_eq_some_iff`: the word of an integer is the one with that value.
* `ofInt?_eq_none_iff`: there is none exactly outside the range.
-/

namespace ScopeScript.Word

/-- The word with a given value, if the value fits. -/
def ofInt? (z : Int) : Option Int64 :=
  if Int64.minValue.toInt ≤ z ∧ z ≤ Int64.maxValue.toInt then some (Int64.ofInt z) else none

/-- The least value of a word. -/
theorem toInt_minValue : Int64.minValue.toInt = -9223372036854775808 := rfl

/-- The greatest value of a word. -/
theorem toInt_maxValue : Int64.maxValue.toInt = 9223372036854775807 := rfl

/-- The word of an integer is the one with that value. -/
theorem ofInt?_eq_some_iff {z : Int} {n : Int64} : ofInt? z = some n ↔ n.toInt = z := by
  constructor
  · intro h
    simp only [ofInt?, Option.ite_none_right_eq_some, Option.some.injEq] at h
    obtain ⟨⟨hl, hu⟩, rfl⟩ := h
    rw [toInt_minValue] at hl
    rw [toInt_maxValue] at hu
    exact Int64.toInt_ofInt_of_le (by omega) (by omega)
  · rintro rfl
    rw [ofInt?, if_pos ⟨Int64.minValue_le_toInt n, Int64.toInt_le n⟩, Int64.ofInt_toInt]

/-- A word is found again by its value. -/
@[simp]
theorem ofInt?_toInt (n : Int64) : ofInt? n.toInt = some n :=
  ofInt?_eq_some_iff.2 rfl

/-- An integer has no word exactly outside the range of 64 bits. -/
theorem ofInt?_eq_none_iff {z : Int} :
    ofInt? z = none ↔ z < -9223372036854775808 ∨ 9223372036854775807 < z := by
  simp only [ofInt?, toInt_minValue, toInt_maxValue, ite_eq_right_iff, reduceCtorEq, imp_false]
  omega

end ScopeScript.Word
