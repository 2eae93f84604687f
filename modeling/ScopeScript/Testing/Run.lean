import ScopeScript.Host.Module
import ScopeScript.Testing.Summary

/-!
# Test runs

The cases of a program are the functions of its module whose names start with `test` and that take
no parameters. Each case is called in a module of its own, freshly loaded, in the order of the
names.
-/

namespace ScopeScript.Testing

/-- Whether a module's binding of a name is a test case. -/
def isCase (m : Module) (name : String) : Bool :=
  "test".toList.isPrefixOf name.toList &&
    match m.get? name with
    | some (.function d) => d.params.isEmpty
    | _ => false

/-- The names of the test cases of a module, in ascending order. -/
def cases (m : Module) : List String :=
  m.names.filter (isCase m)

/-- The outcome of one case, called in a module of its own. -/
def runCase (program : Block Nat) (config : Config) (name : String) : Outcome :=
  match (Module.load program config).bind fun m => (m.call name []).1 with
  | .ok _ => ⟨name, true, none⟩
  | .error e => ⟨name, false, some e.message⟩

/-- Runs the test cases of a program. It fails only if the program cannot be loaded. -/
def run (program : Block Nat) (config : Config) : Except EvalError Summary :=
  (Module.load program config).map fun m =>
    Summary.ofResults ((cases m).map (runCase program config))

end ScopeScript.Testing
