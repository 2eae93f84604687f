import ScopeScript.Proofs.Host.History
import ScopeScript.Testing.Run

/-!
# What a test run reports

A test run loads the program once to find its cases and once more for each case. Since operations
leave no trace on a module, nothing is gained by the further modules: a case has the outcome that
its call has on the module that was loaded first, whatever else was asked of that module before.

* `IsTest`: the names that are cases, by what the module binds.
* `Outcome.Tells`: an outcome that tells the result of a call.
* `Summary.Reports`: a summary that reports the cases of a module, and nothing else.

Main statement:

* `run_reports`: a test run fails as loading fails, and otherwise reports the cases of the module.
-/

namespace ScopeScript.Testing

/-! ### Cases -/

/-- The name starts with `test`, and the module binds it to a function without parameters. -/
def IsTest (m : Module) (name : String) : Prop :=
  "test".toList <+: name.toList ∧ ∃ d, m.get? name = some (.function d) ∧ d.params = []

variable {m : Module} {name : String}

/-- The check on a name decides whether it is a case. -/
theorem isCase_iff : isCase m name = true ↔ IsTest m name := by
  rw [isCase, IsTest, Bool.and_eq_true, List.isPrefixOf_iff_prefix]
  refine and_congr_right fun _ => ?_
  cases hvalue : m.get? name with
  | none => simp
  | some v => cases v <;> simp

/-- The cases are the names that are tests, each of which the module binds. -/
theorem mem_cases_iff : name ∈ cases m ↔ IsTest m name := by
  rw [cases, List.mem_filter, isCase_iff, and_iff_right_of_imp]
  rintro ⟨-, d, hd, -⟩
  refine NameMap.isSome_get?_iff.1 ?_
  change (m.get? name).isSome = true
  rw [hd]
  rfl

/-- The cases are in ascending order, so that none occurs twice. -/
theorem pairwise_cases (m : Module) : (cases m).Pairwise (· < ·) :=
  m.bindings.ascending.filter (isCase m)

/-! ### Outcomes -/

/-- The outcome tells the result of a call: success without a diagnostic, or failure with the
diagnostic for the error. -/
def Outcome.Tells (o : Outcome) : Except EvalError HostValue → Prop
  | .ok _ => o.passed = true ∧ o.error = none
  | .error e => o.passed = false ∧ o.error = some e.message

variable {program : Block Nat} {config : Config}

/-- The outcome of a case is that of the name. -/
theorem name_runCase : (runCase program config name).name = name := by
  rw [runCase]
  split <;> rfl

/-- The outcome of a case tells the result that its call has on any module that the program loads
as. -/
theorem tells_runCase (h : Module.load program config = .ok m) :
    (runCase program config name).Tells (m.call name []).1 := by
  rw [runCase, h]
  change Outcome.Tells (match (m.call name []).1 with
    | .ok _ => ⟨name, true, none⟩
    | .error e => ⟨name, false, some e.message⟩) _
  cases (m.call name []).1 with
  | ok value => exact ⟨rfl, rfl⟩
  | error e => exact ⟨rfl, rfl⟩

/-! ### Reports -/

/-- The summary reports the cases of a module. -/
structure Summary.Reports (s : Summary) (m : Module) : Prop where
  /-- The outcomes are in ascending order of their names, by code point, so no name occurs twice. -/
  ascending : (s.results.map Outcome.name).Pairwise (· < ·)
  /-- The outcomes are those of the tests. -/
  mem_names_iff : ∀ name, name ∈ s.results.map Outcome.name ↔ IsTest m name
  /-- Each outcome tells the result of a call on the module, whatever was asked of it before. -/
  tells : ∀ o ∈ s.results, ∀ (describe : String → String) (history : List Module.Operation),
    o.Tells ((m.performAll describe history).call o.name []).1
  /-- Every outcome counts as passed or as failed. -/
  counted : s.passed + s.failed = s.results.length
  /-- The outcomes that passed are counted. -/
  passed_eq : s.passed = (s.results.filter (·.passed)).length

/-- The outcomes of the cases, each called in a module of its own, report the cases of any module
that the program loads as. -/
theorem reports_runCases (h : Module.load program config = .ok m) :
    (Summary.ofResults ((cases m).map (runCase program config))).Reports m := by
  have hnames : ((cases m).map (runCase program config)).map Outcome.name = cases m := by
    rw [List.map_map]
    exact List.map_id'' (fun _ => name_runCase) _
  constructor
  · show (((cases m).map (runCase program config)).map Outcome.name).Pairwise (· < ·)
    rw [hnames]
    exact pairwise_cases m
  · intro name
    show name ∈ ((cases m).map (runCase program config)).map Outcome.name ↔ IsTest m name
    rw [hnames]
    exact mem_cases_iff
  · intro o ho describe history
    obtain ⟨name, -, rfl⟩ := List.mem_map.1 ho
    -- The module after the history is the loaded one.
    rw [Module.performAll_eq, name_runCase]
    exact tells_runCase h
  · exact Summary.passed_add_failed_ofResults _
  · rfl

/-- A test run fails exactly if the program cannot be loaded, with the error of loading. Otherwise
it reports the cases of the loaded module. -/
theorem run_reports (program : Block Nat) (config : Config) :
    match Module.load program config with
    | .error e => run program config = .error e
    | .ok m => ∃ s, run program config = .ok s ∧ s.Reports m := by
  cases hload : Module.load program config with
  | error e =>
    rw [run, hload]
    rfl
  | ok m =>
    refine ⟨_, ?_, reports_runCases hload⟩
    rw [run, hload]
    rfl

/-- A case that passes, one whose assertion fails, and one that calls itself for ever. A function
with a parameter is no case, nor is a name that is bound to a function and then to a number. -/
example :
    let test (tag : Nat) (name : String) (params : List String) (body : Block Nat) : Stmt Nat :=
      .funcDef tag name params body
    run [test 0 "test_loop" [] [.expr (.call (.name "test_loop") [])],
        test 1 "test_given" ["x"] [.pass],
        test 2 "test_false" [] [.assert [.bool false]],
        test 3 "test_gone" [] [.pass], .assign "test_gone" none (some (.int 1)),
        .assign "test" none (some (.name "test_false")),
        test 4 "test_true" [] [.assert [.bool true]]]
      { maxCallDepth := 3 } =
      .ok ⟨[⟨"test", false, some "assertion failed: False"⟩,
          ⟨"test_false", false, some "assertion failed: False"⟩,
          ⟨"test_loop", false, some "maximum call depth of 3 exceeded"⟩,
          ⟨"test_true", true, none⟩], 1, 3⟩ := by
  rfl

end ScopeScript.Testing
