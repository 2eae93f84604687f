import ScopeScript.Evaluation.Basic

/-!
# An interpreter without a stack

Dynamic scope told with one finite map, the names visible at a point of the run. Assignments and
definitions update the map, a return ends the statements early with its value, and a call runs its
body on the caller's map overridden by the parameters and then drops what the body made of it. The
recursion ends because a body is run only while fewer calls are in progress than the settings allow,
and then with one more in progress; everything else descends in the syntax.

* `NameMap.override`: the names of one map over those of another.
* `Environment.visible`: the visible names of a frame stack, each with the value that it resolves
  to.
* `Flat.eval`, `Flat.exec`: the interpreter.
-/

namespace ScopeScript

/-- The map with the names of another map set over its own. -/
def NameMap.override {α : Type} (m upper : NameMap α) : NameMap α :=
  upper.entries.foldl (fun m e => m.insert e.1 e.2) m

/-- The names that the frames bind, a frame over those below it. A pending return binds none. -/
def Environment.visible (env : Environment) : NameMap Value :=
  env.frames.foldr
    (fun frame names =>
      match frame with
      | .scope bindings => names.override bindings
      | .ret _ => names)
    .empty

namespace Flat

/-- What running statements comes to. -/
inductive Flow where
  /-- The statements ended, and these names are visible after them. -/
  | next (names : NameMap Value)
  /-- A statement returned. -/
  | returned (value : Value)

/-- What a body gives its caller: the value it returned, or `None`. -/
def Flow.value : Flow → Value
  | next _ => .none
  | returned value => value

mutual

/-- The value of an expression. -/
def eval (cfg : Config) (depth : Nat) (names : NameMap Value) (e : Expr) :
    Except EvalError Value :=
  match e with
  | .none => .ok .none
  | .bool b => .ok (.bool b)
  | .int n => .ok (.int n)
  | .name id =>
    match names.get? id with
    | some v => .ok v
    | none => .error (.nameNotFound id)
  | .unary .not a => do
    let v ← eval cfg depth names a
    return .bool (!v.truthy cfg.truthiness)
  | .unary op a => .error (.notImplemented (.unary op a))
  | .binary op a b =>
    match op.meaning? cfg.truthiness with
    | some meaning => do
      let x ← eval cfg depth names a
      let y ← eval cfg depth names b
      meaning x y
    | none => .error (.notImplemented (.binary op a b))
  | .ternary body condition orelse => do
    let v ← eval cfg depth names condition
    if v.truthy cfg.truthiness then eval cfg depth names body else eval cfg depth names orelse
  | .call callee args => do
    let d ← (← eval cfg depth names callee).asFunction
    if args.length = d.params.length then
      -- The limit is looked at before the arguments, which see the names of the caller.
      if cfg.maxCallDepth ≤ depth then .error (.callDepthExceeded cfg.maxCallDepth)
      else do
        let values ← evalAll cfg depth names args
        -- The names of the body go with it.
        let flow ← execAll cfg (depth + 1) (names.override (.ofList (d.params.zip values))) d.body
        return flow.value
    else .error (.arity d.name d.params.length args.length)
  termination_by (cfg.maxCallDepth - depth, sizeOf e)

/-- The values of several expressions, in order. -/
def evalAll (cfg : Config) (depth : Nat) (names : NameMap Value) (es : List Expr) :
    Except EvalError (List Value) :=
  match es with
  | [] => .ok []
  | e :: es => do
    let v ← eval cfg depth names e
    let vs ← evalAll cfg depth names es
    return v :: vs
  termination_by (cfg.maxCallDepth - depth, sizeOf es)

/-- Asserts each of several expressions. -/
def assertAll (cfg : Config) (depth : Nat) (names : NameMap Value) (es : List Expr) :
    Except EvalError Unit :=
  match es with
  | [] => .ok ()
  | e :: es => do
    let v ← eval cfg depth names e
    if v.truthy cfg.truthiness then assertAll cfg depth names es else .error (.assertionFailed e)
  termination_by (cfg.maxCallDepth - depth, sizeOf es)

/-- Runs a statement. -/
def exec (cfg : Config) (depth : Nat) (names : NameMap Value) (s : Stmt Nat) :
    Except EvalError Flow :=
  match s with
  | .assign _ _ none => .ok (.next names)
  | .assign target _ (some e) => do
    let v ← eval cfg depth names e
    return .next (names.insert target v)
  | .assert es => do
    assertAll cfg depth names es
    return .next names
  | .cond condition body none => do
    let v ← eval cfg depth names condition
    if v.truthy cfg.truthiness then execAll cfg depth names body else return .next names
  | .cond condition body (some orelse) => do
    let v ← eval cfg depth names condition
    if v.truthy cfg.truthiness then execAll cfg depth names body
    else execAll cfg depth names orelse
  | .ret none => .ok (.returned .none)
  | .ret (some e) => do
    let v ← eval cfg depth names e
    return .returned v
  | .funcDef tag name params body =>
    .ok (.next (names.insert name (.function ⟨tag, name, params, body⟩)))
  | .simple stmts => execAll cfg depth names stmts
  | .expr e => do
    let _ ← eval cfg depth names e
    return .next names
  | .pass => .ok (.next names)
  termination_by (cfg.maxCallDepth - depth, sizeOf s)

/-- Runs statements in order, up to the first that returns. -/
def execAll (cfg : Config) (depth : Nat) (names : NameMap Value) (ss : List (Stmt Nat)) :
    Except EvalError Flow :=
  match ss with
  | [] => .ok (.next names)
  | s :: ss => do
    match ← exec cfg depth names s with
    | .next names => execAll cfg depth names ss
    | .returned value => return .returned value
  termination_by (cfg.maxCallDepth - depth, sizeOf ss)

end

end Flat

end ScopeScript
