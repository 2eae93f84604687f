import ScopeScript.Evaluation.Evaluator
import ScopeScript.Host.Value

/-!
# Loaded programs

A module is a program that has been run once. Its scope stays, so that a host can look up what the
program bound and call its functions by name, any number of times.
-/

namespace ScopeScript

/-- A program that has been run, with the scope that it left. -/
structure Module where
  /-- The evaluator that ran the program. -/
  evaluator : Evaluator

namespace Module

/-- Runs a program in an environment of its own. -/
def load (program : Block Nat) (config : Config) : Except EvalError Module :=
  match ({ config } : Evaluator).executeModule program with
  | (.ok (), evaluator) => .ok ⟨evaluator⟩
  | (.error e, _) => .error e

/-- What the module binds. -/
def bindings (m : Module) : NameMap Value :=
  m.evaluator.env.moduleBindings?.getD .empty

/-- The value that the module binds to a name. -/
def get? (m : Module) (name : String) : Option Value :=
  m.bindings.get? name

/-- The names that the module binds, in ascending order. -/
def names (m : Module) : List String :=
  m.bindings.names

/-- Calls a function of the module by name. The call goes the way of every call, with the arguments
as expressions, so that a function passed by name is the one that the module binds. The module comes
back with what the call left. -/
def call (m : Module) (name : String) (args : List HostValue) :
    Except EvalError HostValue × Module :=
  match m.get? name with
  | none => (.error (.nameNotFound name), m)
  | some (.function _) =>
    let (result, evaluator) := m.evaluator.evaluate (.call (.name name) (args.map HostValue.toExpr))
    (result.map Value.toHost, ⟨evaluator⟩)
  | some _ => (.error (.notAFunction name), m)

/-- Calls a function of the module by name, with the arguments as the text of a JSON array and the
result as JSON text. The arguments are decoded before the name is looked up. What the decoder says
of a text that it refuses is the decoder's own: `describe` gives it. -/
def callJson (m : Module) (describe : String → String) (name args : String) :
    Except EvalError String × Module :=
  match HostValue.decodeAll? args with
  | none => (.error (.hostArguments (describe args)), m)
  | some values =>
    let (result, m) := m.call name values
    (result.map HostValue.encode, m)

end Module

end ScopeScript
