import ScopeScript.Text.Decimal

/-!
# Summaries of test runs

The outcomes of the cases of a test run with their counts, and the text that reports them: a line
for each case, a blank line, and a line with the counts.
-/

namespace ScopeScript.Testing

/-- The outcome of one case. -/
structure Outcome where
  /-- The name of the case. -/
  name : String
  /-- Whether the case passed. -/
  passed : Bool
  /-- The diagnostic of a case that failed. -/
  error : Option String
  deriving DecidableEq, Repr

/-- The line that reports a case. -/
def Outcome.text (o : Outcome) : String :=
  if o.passed then "  ✓ " ++ o.name
  else "  ✗ " ++ o.name ++ ": " ++ o.error.getD "unknown error"

/-- The outcomes of a run with their counts. -/
structure Summary where
  /-- The outcome of each case, in the order of the run. -/
  results : List Outcome
  /-- The number of cases that passed. -/
  passed : Nat
  /-- The number of cases that failed. -/
  failed : Nat
  deriving DecidableEq, Repr

namespace Summary

/-- The summary of several outcomes. -/
def ofResults (results : List Outcome) : Summary :=
  let passed := (results.filter (·.passed)).length
  ⟨results, passed, results.length - passed⟩

/-- Whether no case failed. -/
def allPassed (s : Summary) : Bool :=
  s.failed == 0

/-- The report of a run. -/
def text (s : Summary) : String :=
  String.join (s.results.map fun o => o.text ++ "\n") ++ "\n" ++ Text.decimal s.passed ++
    " passed, " ++ Text.decimal s.failed ++ " failed\n"

/-- Every outcome is counted once. -/
theorem passed_add_failed_ofResults (results : List Outcome) :
    (ofResults results).passed + (ofResults results).failed = results.length :=
  Nat.add_sub_cancel' (List.length_filter_le _ _)

end Summary

end ScopeScript.Testing
