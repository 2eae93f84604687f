/-!
# Decimal text

Integers in decimal: the digits, the most significant first, behind a minus sign if the integer is
negative, without leading zeros.

* `valueOf_digits`: the digits of a number denote it.
-/

namespace ScopeScript.Text

/-- The decimal digits of a number, the most significant first. -/
def digits (n : Nat) : List Char :=
  Nat.toDigits 10 n

/-- The number that decimal digits denote. -/
def valueOf (ds : List Char) : Nat :=
  Nat.ofDigitChars 10 ds 0

/-- An integer in decimal. -/
def decimal : Int → String
  | .ofNat n => String.ofList (digits n)
  | .negSucc n => String.ofList ('-' :: digits (n + 1))

/-- The digits of a number denote it. -/
@[simp]
theorem valueOf_digits (n : Nat) : valueOf (digits n) = n :=
  Nat.ofDigitChars_toDigits (by decide) (by decide)

/-- The digits of a number are digits. -/
theorem isDigit_of_mem_digits {n : Nat} {c : Char} (h : c ∈ digits n) : c.isDigit = true :=
  Nat.isDigit_of_mem_toDigits (by decide) (by decide) h

end ScopeScript.Text
