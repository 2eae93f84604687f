import ScopeScript.Evaluation.Step
import ScopeScript.Value.Operation

/-!
# Evaluation

Running expressions and statements against a frame stack. Expressions leave the stack as they find
it; statements bind names in the top scope, and a return posts its value on top of it.

A call needs the body of a function that only the run reveals, so evaluation is layered. Running the
syntax in hand is structural recursion, given a `Caller` that runs calls; `Caller.upTo n` allows `n`
calls to be in progress at once, each body being run with the caller for one call less. Nothing but
the allowance itself ends a run that calls itself forever.

* `Caller.atDepth_of_le`, `Caller.atDepth_of_lt`: a call is refused when as many are in progress as
  the settings allow, and otherwise runs its body with one call more in progress.
-/

namespace ScopeScript

/-- What runs the call of a function with the values of its arguments. It is absent when as many
calls as allowed are in progress. -/
abbrev Caller := Option (FuncDef Nat → List Value → EvalM Value)

/-- The function that a value is. -/
def Value.asFunction : Value → Except EvalError (FuncDef Nat)
  | function d => .ok d
  | v => .error (.notCallable v.kind)

/-! ### Expressions -/

mutual

/-- The value of an expression. -/
def Expr.eval (cfg : Config) (caller : Caller) : Expr → EvalM Value
  | .none => pure .none
  | .bool b => pure (.bool b)
  | .int n => pure (.int n)
  | .name id => EvalM.asks (·.resolve id)
  | .unary op e =>
    match op with
    | .not => do
      let v ← Expr.eval cfg caller e
      return .bool (!v.truthy cfg.truthiness)
    | _ => throw (.notImplemented (.unary op e))
  | .binary op a b =>
    match op.meaning? cfg.truthiness with
    | .some meaning => do
      let x ← Expr.eval cfg caller a
      let y ← Expr.eval cfg caller b
      EvalM.ofExcept (meaning x y)
    | .none => throw (.notImplemented (.binary op a b))
  | .ternary body condition orelse => do
    let v ← Expr.eval cfg caller condition
    if v.truthy cfg.truthiness then Expr.eval cfg caller body else Expr.eval cfg caller orelse
  | .call callee args => do
    let d ← EvalM.ofExcept (← Expr.eval cfg caller callee).asFunction
    -- The number of arguments is checked before the limit.
    if args.length = d.params.length then
      match caller with
      | .none => throw (.callDepthExceeded cfg.maxCallDepth)
      | .some run => do
        -- The arguments see the names of the caller.
        let values ← Expr.evalAll cfg caller args
        run d values
    else throw (.arity d.name d.params.length args.length)

/-- The values of several expressions, in order. -/
def Expr.evalAll (cfg : Config) (caller : Caller) : List Expr → EvalM (List Value)
  | [] => pure []
  | e :: es => do
    let v ← Expr.eval cfg caller e
    let vs ← Expr.evalAll cfg caller es
    return v :: vs

end

/-- Asserts each of several expressions. -/
def Expr.assertAll (cfg : Config) (caller : Caller) : List Expr → EvalM Unit
  | [] => pure ()
  | e :: es => do
    let v ← e.eval cfg caller
    if v.truthy cfg.truthiness then Expr.assertAll cfg caller es else throw (.assertionFailed e)

/-! ### Statements -/

mutual

/-- Runs a statement. The result tells whether it posted a return. -/
def Stmt.exec (cfg : Config) (caller : Caller) : Stmt Nat → EvalM Bool
  | .assign target _ value =>
    match value with
    -- A bare annotation binds nothing.
    | none => pure false
    | some e => do
      let v ← e.eval cfg caller
      EvalM.changes (·.define target v)
      return false
  | .assert es => do
    Expr.assertAll cfg caller es
    return false
  | .cond condition body none => do
    let v ← condition.eval cfg caller
    if v.truthy cfg.truthiness then Stmt.execAll cfg caller body else return false
  | .cond condition body (some orelse) => do
    let v ← condition.eval cfg caller
    if v.truthy cfg.truthiness then Stmt.execAll cfg caller body
    else Stmt.execAll cfg caller orelse
  | .ret value => do
    let v ← match value with
      | none => pure .none
      | some e => e.eval cfg caller
    EvalM.push (.ret v)
    return true
  | .funcDef tag name params body => do
    EvalM.changes (·.define name (.function ⟨tag, name, params, body⟩))
    return false
  | .simple stmts => Stmt.execAll cfg caller stmts
  | .expr e => do
    let _ ← e.eval cfg caller
    return false
  | .pass => pure false

/-- Runs statements in order, up to the first that posts a return. The result tells whether one
did. -/
def Stmt.execAll (cfg : Config) (caller : Caller) : List (Stmt Nat) → EvalM Bool
  | [] => pure false
  | s :: ss => do
    if ← Stmt.exec cfg caller s then return true else Stmt.execAll cfg caller ss

end

/-! ### Calls -/

/-- The value that the body of a function returns, or `None` if it returns nothing, with the
parameters bound in the top frame. The frames of the call are taken off the stack. -/
def FuncDef.runBody (cfg : Config) (caller : Caller) (d : FuncDef Nat) : EvalM Value := do
  let returned ← Stmt.execAll cfg caller d.body
  if !returned then EvalM.push (.ret .none)
  -- The result is on top, and directly below it the scope of the call.
  match ← EvalM.pop with
  | .scope _ => throw (.stackDiscipline .noReturn)
  | .ret value =>
    match ← EvalM.pop with
    | .scope _ => return value
    | .ret _ => throw (.stackDiscipline .secondReturn)

/-- Runs the call of a function: its parameters are bound to the values in a scope of their own, of
two equal parameters the later counts, and the stack is cut back if the body fails. -/
def FuncDef.runCall (cfg : Config) (caller : Caller) (d : FuncDef Nat) (values : List Value) :
    EvalM Value := fun m =>
  -- The height is that below the scope of the call, which goes with the rest when the body fails.
  EvalM.cutBackOnFailure m.env.depth
    (do
      EvalM.push (.scope (.ofList (d.params.zip values)))
      EvalM.inCall (d.runBody cfg caller))
    m

/-- The caller that allows a number of calls to be in progress at once. -/
def Caller.upTo (cfg : Config) : Nat → Caller
  | 0 => none
  | n + 1 => some fun d values => d.runCall cfg (Caller.upTo cfg n) values

/-- The caller when a number of calls are in progress: the settings' limit leaves the rest. -/
def Caller.atDepth (cfg : Config) (callDepth : Nat) : Caller :=
  Caller.upTo cfg (cfg.maxCallDepth - callDepth)

/-- There is no caller when as many calls are in progress as the settings allow. -/
theorem Caller.atDepth_of_le {cfg : Config} {callDepth : Nat} (h : cfg.maxCallDepth ≤ callDepth) :
    Caller.atDepth cfg callDepth = none := by
  rw [atDepth, Nat.sub_eq_zero_of_le h]
  rfl

/-- Below the limit, a body is run with the caller for one call more in progress. -/
theorem Caller.atDepth_of_lt {cfg : Config} {callDepth : Nat} (h : callDepth < cfg.maxCallDepth) :
    Caller.atDepth cfg callDepth =
      some fun d values => d.runCall cfg (Caller.atDepth cfg (callDepth + 1)) values := by
  have hsucc : cfg.maxCallDepth - callDepth = cfg.maxCallDepth - (callDepth + 1) + 1 := by omega
  rw [atDepth, hsucc]
  rfl

end ScopeScript
