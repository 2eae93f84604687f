/-!
# Settings

What a host chooses about evaluation: which values count as true, and how many calls may be in
progress at once.
-/

namespace ScopeScript

/-- Which values count as true in a condition, an assertion, and under `not`, `and` and `or`. -/
inductive Truthiness where
  /-- Only `True` does. -/
  | strict
  /-- `True`, every integer but zero, and every function do. -/
  | python
  deriving DecidableEq, Repr

/-- The settings of an evaluation. -/
structure Config where
  /-- Which values count as true. -/
  truthiness : Truthiness := .strict
  /-- The number of calls that may be in progress at once. -/
  maxCallDepth : Nat := 1000
  deriving DecidableEq, Repr

instance : Inhabited Config := ⟨{}⟩

/-- The truthiness mode as the settings spell it. -/
def Truthiness.name : Truthiness → String
  | strict => "strict"
  | python => "python"

/-- The truthiness mode of a given name. -/
def Truthiness.ofName? (s : String) : Option Truthiness :=
  [strict, python].find? fun t => t.name == s

/-- A truthiness mode is found again by its name. -/
@[simp]
theorem Truthiness.ofName?_name (t : Truthiness) : ofName? t.name = some t := by
  cases t <;> decide +kernel

end ScopeScript
