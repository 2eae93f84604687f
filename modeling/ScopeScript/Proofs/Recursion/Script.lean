import ScopeScript.Evaluation.Evaluator

/-!
# Evaluation as a recursion

Evaluation with its recursion laid open. Each of the tasks that call one another has a script, which
does the task's own work and hands every other task on as a run of its own, on the machine as it is
at that point. A script knows no allowance: whether one more call may start is asked of the machine.

A run of a task follows its script. It ends if every run that it starts ends, so that an outcome is
derived from finitely many runs.

* `Task`, `Task.script`: the tasks and their scripts.
* `Course.Ends`: how a run ends.
* `Course.Reaches`: the machines that a run comes to, and the tasks that it hands on there.
* `Task.perform`: what evaluation makes of a task.

Main statement:

* `Course.Ends.unique`: a run has at most one outcome.
-/

namespace ScopeScript

/-- A result or an error, and the machine after it. -/
abbrev Outcome (α : Type) := Except EvalError α × Machine

/-! ### Tasks -/

/-- What a run is asked to do. -/
inductive Task where
  /-- To give the value of an expression. -/
  | eval (e : Expr)
  /-- To give what a called function returns, with its parameters bound in the top frame. -/
  | runBody (d : FuncDef Nat)
  /-- To run a statement. -/
  | exec (s : Stmt Nat)
  /-- To run statements in order, up to the first that posts a return. -/
  | execAll (ss : List (Stmt Nat))
  /-- To run a whole program. -/
  | program (b : Block Nat)

namespace Task

/-- What a task results in. -/
abbrev Result : Task → Type
  | eval _ | runBody _ => Value
  | exec _ | execAll _ => Bool
  | program _ => Unit

/-- The step by which evaluation does the task. -/
def step : (t : Task) → Config → Caller → EvalM t.Result
  | eval e => fun cfg caller => e.eval cfg caller
  | runBody d => fun cfg caller => d.runBody cfg caller
  | exec s => fun cfg caller => s.exec cfg caller
  | execAll ss => fun cfg caller => Stmt.execAll cfg caller ss
  | program b => Evaluator.moduleStep b

/-- What evaluation makes of the task on a machine, with the calls that the settings leave. -/
def perform (cfg : Config) (t : Task) : EvalM t.Result :=
  fun m => t.step cfg (Caller.atDepth cfg m.callDepth) m

/-- The size of the syntax that the task is about. -/
noncomputable def size : Task → Nat
  | eval e => sizeOf e
  | runBody d => sizeOf d.body + 1
  | exec s => sizeOf s
  | execAll ss => sizeOf ss
  | program b => sizeOf b + 1

end Task

/-! ### Courses -/

/-- The course of a run, which stops at each task that it hands on and goes on with the outcome. -/
inductive Course (α : Type) : Type where
  /-- The run is at its end. -/
  | ended (outcome : Outcome α)
  /-- The machine has changed. -/
  | moved (m : Machine) (rest : Course α)
  /-- A task is handed on. -/
  | started (t : Task) (m : Machine) (next : Outcome t.Result → Course α)

/-- The course that goes on after the end of another. -/
def Course.andThen {α β : Type} : Course α → (Outcome α → Course β) → Course β
  | ended outcome, next => next outcome
  | moved m rest, next => moved m (rest.andThen next)
  | started t m after, next => started t m fun outcome => (after outcome).andThen next

/-- A course for each machine that a run may start on. -/
def Script (α : Type) : Type :=
  Machine → Course α

namespace Script

/-- A failure ends the script, and a result is handed to what follows. -/
instance : Monad Script where
  pure a := fun m => .ended (.ok a, m)
  bind script next := fun m => (script m).andThen fun
    | (.ok a, m') => next a m'
    | (.error e, m') => .ended (.error e, m')

variable {α : Type}

/-- The script of a single step. -/
def ofStep (step : EvalM α) : Script α :=
  fun m => .moved (step m).2 (.ended (step m))

/-- Hands a task on. -/
def start (t : Task) : Script t.Result :=
  fun m => .started t m .ended

/-- Hands an expression on. -/
def eval (e : Expr) : Script Value :=
  start (.eval e)

/-- Hands statements on. -/
def execAll (ss : List (Stmt Nat)) : Script Bool :=
  start (.execAll ss)

/-- Follows a script if one more call may be in progress. -/
def ifAllowed (cfg : Config) (script : Script α) : Script α := fun m =>
  if cfg.maxCallDepth ≤ m.callDepth then
    ofStep (throw (.callDepthExceeded cfg.maxCallDepth)) m
  else script m

/-- Follows a script while one more call is in progress. -/
def inCall (script : Script α) : Script α := fun m =>
  let entered : Machine := { m with callDepth := m.callDepth + 1 }
  .moved entered ((script entered).andThen fun (result, m') =>
    let left : Machine := { m' with callDepth := m'.callDepth - 1 }
    .moved left (.ended (result, left)))

/-- Follows a script and, if it fails, cuts the stack back to the height that it had before. -/
def cutBackOnFailure (height : Nat) (script : Script α) : Script α := fun m =>
  (script m).andThen fun
    | (.ok a, m') => .ended (.ok a, m')
    | (.error e, m') =>
      let cut : Machine := { m' with env := m'.env.truncate height }
      .moved cut (.ended (.error e, cut))

/-- Calls a function with the values of its arguments: its body is handed on. -/
def call (d : FuncDef Nat) (values : List Value) : Script Value := fun m =>
  cutBackOnFailure m.env.depth
    (do
      ofStep (EvalM.push (.scope (.ofList (d.params.zip values))))
      inCall (start (.runBody d)))
    m

/-- Hands several expressions on, one after the other. -/
def evalEach : List Expr → Script (List Value)
  | [] => pure []
  | e :: es => do
    let v ← eval e
    let vs ← evalEach es
    return v :: vs

/-- Hands several asserted expressions on, one after the other. -/
def assertEach (cfg : Config) : List Expr → Script Unit
  | [] => pure ()
  | e :: es => do
    let v ← eval e
    if v.truthy cfg.truthiness then assertEach cfg es else ofStep (throw (.assertionFailed e))

/-- Hands several statements on, one after the other, up to the first that posts a return. -/
def execEach : List (Stmt Nat) → Script Bool
  | [] => pure false
  | s :: ss => do
    if ← start (.exec s) then return true else execEach ss

end Script

/-! ### Scripts of the tasks -/

/-- The script by which an expression is evaluated. -/
def Expr.script (cfg : Config) : Expr → Script Value
  | .none => pure .none
  | .bool b => pure (.bool b)
  | .int n => pure (.int n)
  | .name id => .ofStep (EvalM.asks (·.resolve id))
  | .unary op e =>
    match op with
    | .not => do
      let v ← Script.eval e
      return .bool (!v.truthy cfg.truthiness)
    | _ => .ofStep (throw (.notImplemented (.unary op e)))
  | .binary op a b =>
    match op.meaning? cfg.truthiness with
    | .some meaning => do
      let x ← Script.eval a
      let y ← Script.eval b
      .ofStep (EvalM.ofExcept (meaning x y))
    | .none => .ofStep (throw (.notImplemented (.binary op a b)))
  | .ternary body condition orelse => do
    let v ← Script.eval condition
    if v.truthy cfg.truthiness then Script.eval body else Script.eval orelse
  | .call callee args => do
    let v ← Script.eval callee
    let d ← Script.ofStep (EvalM.ofExcept v.asFunction)
    if args.length = d.params.length then
      Script.ifAllowed cfg do
        let values ← Script.evalEach args
        Script.call d values
    else .ofStep (throw (.arity d.name d.params.length args.length))

/-- The script by which a statement is run. -/
def Stmt.script (cfg : Config) : Stmt Nat → Script Bool
  | .assign _ _ none => pure false
  | .assign target _ (some e) => do
    let v ← Script.eval e
    .ofStep (EvalM.changes (·.define target v))
    return false
  | .assert es => do
    Script.assertEach cfg es
    return false
  | .cond condition body none => do
    let v ← Script.eval condition
    if v.truthy cfg.truthiness then Script.execAll body else return false
  | .cond condition body (some orelse) => do
    let v ← Script.eval condition
    if v.truthy cfg.truthiness then Script.execAll body else Script.execAll orelse
  | .ret value => do
    let v ← match value with
      | none => pure .none
      | some e => Script.eval e
    .ofStep (EvalM.push (.ret v))
    return true
  | .funcDef tag name params body => do
    .ofStep (EvalM.changes (·.define name (.function ⟨tag, name, params, body⟩)))
    return false
  | .simple stmts => Script.execAll stmts
  | .expr e => do
    let _ ← Script.eval e
    return false
  | .pass => pure false

/-- Takes the returned value and the scope of the call off the stack. -/
def Script.collect : Script Value := do
  match ← ofStep EvalM.pop with
  | .scope _ => ofStep (throw (.stackDiscipline .noReturn))
  | .ret value =>
    match ← ofStep EvalM.pop with
    | .scope _ => return value
    | .ret _ => ofStep (throw (.stackDiscipline .secondReturn))

/-- The script by which a called function gives what it returns. -/
def FuncDef.script (d : FuncDef Nat) : Script Value := do
  let returned ← Script.execAll d.body
  if !returned then .ofStep (EvalM.push (.ret .none))
  Script.collect

/-- The script of a task. -/
def Task.script (cfg : Config) : (t : Task) → Script t.Result
  | .eval e => e.script cfg
  | .runBody d => d.script
  | .exec s => s.script cfg
  | .execAll ss => Script.execEach ss
  | .program b => do
    if ← Script.execAll b then
      let _ ← Script.ofStep EvalM.pop
      .ofStep (throw .returnOutsideFunction)
    else return ()

/-! ### Runs -/

namespace Course

variable {cfg : Config} {α β : Type}

/-- A course comes to an end: each task that it hands on comes to an end by its own script. -/
inductive Ends (cfg : Config) : {α : Type} → Course α → Outcome α → Prop where
  /-- At the end. -/
  | ended {α : Type} (outcome : Outcome α) : Ends cfg (.ended outcome) outcome
  /-- Before a change of the machine. -/
  | moved {α : Type} {rest : Course α} {outcome : Outcome α} (m : Machine)
    (h : Ends cfg rest outcome) : Ends cfg (.moved m rest) outcome
  /-- Before a task that is handed on: it ends, and the course goes on with its outcome. -/
  | started {α : Type} {t : Task} {m : Machine} {next : Outcome t.Result → Course α}
    {answer : Outcome t.Result} {outcome : Outcome α} (h : Ends cfg (t.script cfg m) answer)
    (hnext : Ends cfg (next answer) outcome) : Ends cfg (.started t m next) outcome

/-- A course comes to a machine, and may hand a task on there. What follows a task is reached if the
task comes to an end. -/
inductive Reaches (cfg : Config) {α : Type} : Course α → Machine → Option Task → Prop where
  /-- A machine that has changed. -/
  | moved (m : Machine) (rest : Course α) : Reaches cfg (.moved m rest) m none
  /-- A task that is handed on. -/
  | started (t : Task) (m : Machine) (next : Outcome t.Result → Course α) :
    Reaches cfg (.started t m next) m (some t)
  /-- What follows a change of the machine. -/
  | afterMove {rest : Course α} {m' : Machine} {t? : Option Task} (m : Machine)
    (h : Reaches cfg rest m' t?) : Reaches cfg (.moved m rest) m' t?
  /-- What follows a task, for the outcome that the task comes to. -/
  | afterTask {t : Task} {m m' : Machine} {next : Outcome t.Result → Course α}
    {answer : Outcome t.Result} {t? : Option Task} (hanswer : Ends cfg (t.script cfg m) answer)
    (h : Reaches cfg (next answer) m' t?) : Reaches cfg (.started t m next) m' t?

/-- A run has at most one outcome. -/
theorem Ends.unique {c : Course α} {o o' : Outcome α} (h : Ends cfg c o) (h' : Ends cfg c o') :
    o = o' := by
  induction h with
  | ended =>
    cases h'
    rfl
  | moved m _ ih =>
    cases h' with
    | moved _ h' => exact ih h'
  | started _ _ ihtask ihnext =>
    cases h' with
    | started htask hnext =>
      obtain rfl := ihtask htask
      exact ihnext hnext

/-- A course that goes on after one that comes to an end. -/
theorem Ends.andThen {c : Course α} {next : Outcome α → Course β} {o : Outcome α} {o' : Outcome β}
    (h : Ends cfg c o) (hnext : Ends cfg (next o) o') : Ends cfg (c.andThen next) o' := by
  induction h with
  | ended => exact hnext
  | moved m _ ih => exact .moved m (ih hnext)
  | started htask _ _ ih => exact .started htask (ih hnext)

end Course

end ScopeScript
