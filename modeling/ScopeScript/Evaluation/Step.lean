import ScopeScript.Environment

/-!
# Steps of evaluation

A step reads and changes the frame stack and the count of the calls in progress, and gives a result
or fails. Both survive a failure: what a step had done to them before it failed stays done.

* `bind_apply`: two steps in a row, of which the second runs only if the first succeeds.
-/

namespace ScopeScript

/-- What a run reads and changes. -/
structure Machine where
  /-- The frame stack. -/
  env : Environment := .initial
  /-- The number of calls in progress. -/
  callDepth : Nat := 0
  deriving DecidableEq

/-- A step of evaluation. -/
abbrev EvalM := ExceptT EvalError (StateM Machine)

namespace EvalM

/-- The step that gives a result that is already known. -/
def ofExcept {α : Type} (result : Except EvalError α) : EvalM α :=
  fun m => (result, m)

/-- The step that reads the stack. -/
def asks {α : Type} (f : Environment → Except EvalError α) : EvalM α :=
  fun m => (f m.env, m)

/-- The step that changes the stack, or leaves it as it is and fails. -/
def changes (f : Environment → Except EvalError Environment) : EvalM Unit := fun m =>
  match f m.env with
  | .ok env => (.ok (), { m with env })
  | .error e => (.error e, m)

/-- Puts a frame on top of the stack. -/
def push (frame : Frame) : EvalM Unit :=
  fun m => (.ok (), { m with env := m.env.push frame })

/-- Takes the top frame off the stack. -/
def pop : EvalM Frame := fun m =>
  match m.env.pop with
  | .ok (frame, env) => (.ok frame, { m with env })
  | .error e => (.error e, m)

/-- Runs a step while one more call is in progress. The call ends with the step, also if that
fails. -/
def inCall {α : Type} (step : EvalM α) : EvalM α := fun m =>
  let (result, m') := step { m with callDepth := m.callDepth + 1 }
  (result, { m' with callDepth := m'.callDepth - 1 })

/-- Runs a step and, if it fails, cuts the stack back to the height that it had before. -/
def cutBackOnFailure {α : Type} (height : Nat) (step : EvalM α) : EvalM α := fun m =>
  match step m with
  | (.ok a, m') => (.ok a, m')
  | (.error e, m') => (.error e, { m' with env := m'.env.truncate height })

/-! ### Laws -/

variable {α β : Type}

/-- A known result leaves everything as it is. -/
@[simp]
theorem pure_apply (a : α) (m : Machine) : (pure a : EvalM α) m = (.ok a, m) := rfl

/-- A failure leaves everything as it is. -/
@[simp]
theorem throw_apply (e : EvalError) (m : Machine) : (throw e : EvalM α) m = (.error e, m) := rfl

/-- Two steps in a row: the second goes on with the result of the first and with what the first
left, and does not run if the first fails. -/
theorem bind_apply (step : EvalM α) (next : α → EvalM β) (m : Machine) :
    (step >>= next) m =
      match step m with
      | (.ok a, m') => next a m'
      | (.error e, m') => (.error e, m') := by
  change (match step m with
    | (result, m') => ExceptT.bindCont next result m') = _
  rcases step m with ⟨result | result, m'⟩ <;> rfl

/-- A step that succeeds is not cut back. -/
theorem cutBackOnFailure_of_ok {height : Nat} {step : EvalM α} {m m' : Machine} {a : α}
    (h : step m = (.ok a, m')) : cutBackOnFailure height step m = (.ok a, m') := by
  simp [cutBackOnFailure, h]

/-- A step that fails is cut back. -/
theorem cutBackOnFailure_of_error {height : Nat} {step : EvalM α} {m m' : Machine} {e : EvalError}
    (h : step m = (.error e, m')) :
    cutBackOnFailure height step m = (.error e, { m' with env := m'.env.truncate height }) := by
  simp [cutBackOnFailure, h]

end EvalM

end ScopeScript
