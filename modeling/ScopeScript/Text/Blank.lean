/-!
# Blank text

The white space of the Unicode standard, and the texts made of it alone. The class is the property
`White_Space`: twenty-five code points, of which the class of `Char` in core holds four.

* `isBlank_append`: a joined text is blank exactly when both of its parts are.
-/

namespace ScopeScript.Text

/-- The code points with the property `White_Space`, as inclusive ranges in ascending order. -/
def whiteSpaceRanges : List (Nat × Nat) :=
  [(0x0009, 0x000D), (0x0020, 0x0020), (0x0085, 0x0085), (0x00A0, 0x00A0), (0x1680, 0x1680),
   (0x2000, 0x200A), (0x2028, 0x2029), (0x202F, 0x202F), (0x205F, 0x205F), (0x3000, 0x3000)]

/-- Whether a character has the property `White_Space`. -/
def isWhiteSpace (c : Char) : Bool :=
  whiteSpaceRanges.any fun r => r.1 ≤ c.toNat && c.toNat ≤ r.2

/-- Whether a text holds nothing but white space; the empty text does. -/
def isBlank (s : String) : Bool :=
  s.toList.all isWhiteSpace

/-- The ranges are disjoint and ascending. -/
example : whiteSpaceRanges.Pairwise fun r s => r.2 < s.1 := by decide

/-- The ranges hold twenty-five code points. -/
example : (whiteSpaceRanges.map fun r => r.2 + 1 - r.1).sum = 25 := by decide

/-- The empty text is blank. -/
@[simp]
theorem isBlank_empty : isBlank "" = true := rfl

/-- A joined text is blank exactly when both parts are. -/
@[simp]
theorem isBlank_append (s t : String) : isBlank (s ++ t) = (isBlank s && isBlank t) := by
  simp [isBlank]

end ScopeScript.Text
