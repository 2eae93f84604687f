import ScopeScript.Text.Decimal
import ScopeScript.Word

/-!
# Integer literals

A decimal literal is a run of digits of the ASCII range, in which single underscores may stand
between two digits. A zero leads only a literal of zeros, and the value fits a word. A literal has
no sign.

* `read?_eq_some_iff_tests`: the tests that a literal passes.
-/

namespace ScopeScript.Literal

/-- Whether two underscores stand together in a text. -/
def hasDoubleUnderscore : List Char → Bool
  | [] => false
  | c :: rest => c == '_' && rest.head? == some '_' || hasDoubleUnderscore rest

/-- Whether a text is made of digits and underscores, with an underscore neither at an end nor
beside another. -/
def isWellFormed (cs : List Char) : Bool :=
  cs != [] && cs.all (fun c => c.isDigit || c == '_') && cs.head? != some '_' &&
    cs.getLast? != some '_' && !hasDoubleUnderscore cs

/-- Whether a zero leads further digits, not all of them zeros. -/
def hasLeadingZero (ds : List Char) : Bool :=
  decide (1 < ds.length) && ds.head? == some '0' && ds.any (· != '0')

/-- The value of a literal, absent if the text is none. -/
def read? (s : String) : Option Int64 :=
  let ds := s.toList.filter (· != '_')
  if !isWellFormed s.toList then none
  else if hasLeadingZero ds then none
  else Word.ofInt? (Text.valueOf ds)

/-- Zeros may lead zeros, and underscores separate digits. -/
example : read? "0_0" = some 0 ∧ read? "1_000" = some 1000 ∧ read? "007" = none ∧
    read? "1__0" = none ∧ read? "_1" = none ∧ read? "1_" = none ∧ read? "" = none := by
  decide +kernel

/-- The greatest literal is the greatest word. -/
example : read? "9223372036854775807" = some 9223372036854775807 ∧
    read? "9223372036854775808" = none := by
  decide +kernel

/-- A text is a literal of a word if it passes the tests on its form and its digits denote the
word. -/
theorem read?_eq_some_iff_tests {s : String} {n : Int64} :
    read? s = some n ↔ isWellFormed s.toList = true ∧
      hasLeadingZero (s.toList.filter (· != '_')) = false ∧
      Word.ofInt? (Text.valueOf (s.toList.filter (· != '_'))) = some n := by
  rw [read?]
  cases isWellFormed s.toList <;> cases hasLeadingZero (s.toList.filter (· != '_')) <;> simp

/-- A text that is not well formed is no literal. -/
theorem read?_eq_none_of_isWellFormed {s : String} (h : isWellFormed s.toList = false) :
    read? s = none := by
  simp [read?, h]

end ScopeScript.Literal
