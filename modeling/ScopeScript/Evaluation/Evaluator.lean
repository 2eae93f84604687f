import ScopeScript.Evaluation.Basic

/-!
# Evaluators

An evaluator holds the settings, the frame stack, and how many calls are in progress. Each operation
gives its result, or an error, together with the evaluator after it.

* `config_run`: no operation changes the settings.
-/

namespace ScopeScript

/-- An evaluator. -/
structure Evaluator extends Machine where
  /-- The settings. -/
  config : Config

namespace Evaluator

/-- Runs a step, with the calls that the settings leave. -/
def run {α : Type} (ev : Evaluator) (step : Config → Caller → EvalM α) :
    Except EvalError α × Evaluator :=
  let (result, m) := step ev.config (Caller.atDepth ev.config ev.callDepth) ev.toMachine
  (result, { ev with toMachine := m })

/-- The value of an expression. -/
def evaluate (ev : Evaluator) (e : Expr) : Except EvalError Value × Evaluator :=
  ev.run fun cfg caller => e.eval cfg caller

/-- Runs a statement. The result tells whether it posted a return. -/
def execute (ev : Evaluator) (s : Stmt Nat) : Except EvalError Bool × Evaluator :=
  ev.run fun cfg caller => s.exec cfg caller

/-- Runs a block up to the first statement that posts a return. The result tells whether one
did. -/
def executeBlock (ev : Evaluator) (b : Block Nat) : Except EvalError Bool × Evaluator :=
  ev.run fun cfg caller => Stmt.execAll cfg caller b

/-- The step that runs a whole program. A return at its top level is taken off the stack, and is an
error. -/
def moduleStep (program : Block Nat) (cfg : Config) (caller : Caller) : EvalM Unit := do
  if ← Stmt.execAll cfg caller program then
    let _ ← EvalM.pop
    throw .returnOutsideFunction
  else return ()

/-- Runs a whole program, which leaves its bindings in the top frame. -/
def executeModule (ev : Evaluator) (program : Block Nat) : Except EvalError Unit × Evaluator :=
  ev.run (moduleStep program)

/-- No step changes the settings. -/
@[simp]
theorem config_run {α : Type} (ev : Evaluator) (step : Config → Caller → EvalM α) :
    (ev.run step).2.config = ev.config := rfl

end Evaluator

end ScopeScript
