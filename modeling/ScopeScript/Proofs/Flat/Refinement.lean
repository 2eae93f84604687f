import ScopeScript.Proofs.Evaluation.Frames
import ScopeScript.Proofs.Flat.Interpreter

/-!
# The frame stack refines a flat map of names

Evaluation on a stack of frames and the interpreter on one map of names give the same values and the
same errors. Expressions see the stack only through the names that it resolves; statements keep the
map of visible names in step with the scope on top, and the return that they post is the early exit
of the interpreter.

* `Environment.get?_visible`: the visible names are those that the stack resolves.
* `EvalM.Follows`: a step whose outcome is a function of the visible names.
* `EvalM.Flows`: a step of a statement that keeps the visible names in step with the interpreter.

Main statements:

* `Expr.follows_eval` and `Stmt.flows_exec`: expressions and statements agree with the interpreter,
  for any caller that does.
* `Caller.follows_atDepth`: the callers of evaluation do, at every number of calls in progress.
-/

namespace ScopeScript

/-! ### Visible names -/

namespace NameMap

variable {α : Type}

/-- Entries set one after the other, where no name occurs twice. -/
theorem get?_foldl_insert (k : String) :
    ∀ (es : List (String × α)) (m : NameMap α), (es.map Prod.fst).Pairwise (· < ·) →
      (es.foldl (fun m e => m.insert e.1 e.2) m).get? k = (valueAt k es).or (m.get? k)
  | [], _, _ => rfl
  | (name, value) :: es, m, h => by
    obtain ⟨hname, hes⟩ := List.pairwise_cons.1 h
    rw [List.foldl_cons, get?_foldl_insert k es _ hes, get?_insert, valueAt]
    by_cases hk : k = name
    · subst hk
      simp [valueAt_eq_none_of_lt hname]
    · simp [hk]

/-- An overridden map asks the map over it first. -/
theorem get?_override (m upper : NameMap α) (k : String) :
    (m.override upper).get? k = (upper.get? k).or (m.get? k) :=
  get?_foldl_insert k upper.entries m upper.ascending

end NameMap

namespace Environment

/-- The visible names are those that the stack resolves. -/
theorem get?_visible (env : Environment) (name : String) :
    env.visible.get? name = env.lookup? name := by
  obtain ⟨frames⟩ := env
  induction frames with
  | nil => rfl
  | cons frame frames ih =>
    cases frame with
    | ret value => exact ih
    | scope b =>
      show ((visible ⟨frames⟩).override b).get? name = ((push ⟨frames⟩ (.scope b)).lookup? name)
      rw [NameMap.get?_override, lookup?_push_scope, ih]

/-- Resolution is a look at the visible names. -/
theorem resolve_eq (env : Environment) (name : String) :
    env.resolve name =
      match env.visible.get? name with
      | some value => .ok value
      | none => .error (.nameNotFound name) := by
  rw [get?_visible]
  rfl

/-- Stacks that resolve all names alike have the same visible names. -/
theorem visible_congr {env env' : Environment} (h : ∀ name, env.resolve name = env'.resolve name) :
    env.visible = env'.visible := by
  refine NameMap.ext_get? fun name => ?_
  have hname := h name
  rw [resolve_eq, resolve_eq] at hname
  revert hname
  cases env.visible.get? name <;> cases env'.visible.get? name <;> simp

/-- A name bound on top becomes visible with its value. -/
theorem visible_define (b : NameMap Value) (rest : List Frame) (name : String) (value : Value) :
    visible ⟨.scope (b.insert name value) :: rest⟩ =
      (visible ⟨.scope b :: rest⟩).insert name value := by
  refine NameMap.ext_get? fun k => ?_
  show ((visible ⟨rest⟩).override (b.insert name value)).get? k =
    (((visible ⟨rest⟩).override b).insert name value).get? k
  rw [NameMap.get?_override, NameMap.get?_insert, NameMap.get?_insert, NameMap.get?_override]
  by_cases hk : k = name <;> simp [hk]

end Environment

/-! ### Steps of expressions -/

namespace EvalM

variable {α β : Type} {depth : Nat}

/-- With `depth` calls in progress, the outcome of the step is a given function of the visible
names. -/
def Follows (depth : Nat) (step : EvalM α) (flat : NameMap Value → Except EvalError α) : Prop :=
  ∀ env : Environment, (step ⟨env, depth⟩).1 = flat env.visible

/-- An outcome that is already known. -/
theorem follows_ofExcept (result : Except EvalError α) :
    Follows depth (ofExcept result) fun _ => result :=
  fun _ => rfl

/-- A known result. -/
theorem follows_pure (a : α) : Follows depth (pure a) fun _ => .ok a :=
  fun _ => rfl

/-- A failure. -/
theorem follows_throw (e : EvalError) : Follows depth (throw e : EvalM α) fun _ => .error e :=
  fun _ => rfl

/-- Two steps in a row, the first of which only reads, so that the second sees the same names. -/
theorem Follows.bind {step : EvalM α} {next : α → EvalM β}
    {flat : NameMap Value → Except EvalError α} {flatNext : α → NameMap Value → Except EvalError β}
    (hread : Reads step) (hstep : Follows depth step flat)
    (hnext : ∀ a, Follows depth (next a) (flatNext a)) :
    Follows depth (step >>= next) fun names => flat names >>= fun a => flatNext a names := by
  intro env
  show _ = flat env.visible >>= fun a => flatNext a env.visible
  -- The first step leaves the stack, and with it the visible names, as they were.
  rw [bind_apply, hread.eq, hstep env]
  cases flat env.visible with
  | ok a => exact hnext a env
  | error e => rfl

/-- A choice that does not depend on the names. -/
theorem Follows.ite {c : Prop} [Decidable c] {step step' : EvalM α}
    {flat flat' : NameMap Value → Except EvalError α} (hstep : Follows depth step flat)
    (hstep' : Follows depth step' flat') :
    Follows depth (if c then step else step')
      fun names => if c then flat names else flat' names := by
  split
  · exact hstep
  · exact hstep'

end EvalM

/-- With `depth` calls in progress the caller refuses a call exactly when the settings allow no
more, and otherwise gives what the body gives on the names of the caller overridden by the
parameters. -/
inductive Caller.Follows (cfg : Config) (depth : Nat) : Caller → Prop where
  /-- No more calls are allowed. -/
  | refuses (h : cfg.maxCallDepth ≤ depth) : Caller.Follows cfg depth none
  /-- Calls are run. -/
  | runs {run : FuncDef Nat → List Value → EvalM Value} (h : ¬ cfg.maxCallDepth ≤ depth)
    (hrun : ∀ d values, EvalM.Follows depth (run d values) fun names => do
      let flow ← Flat.execAll cfg (depth + 1)
        (names.override (.ofList (d.params.zip values))) d.body
      return flow.value) :
    Caller.Follows cfg depth (some run)

namespace Caller.Follows

variable {cfg : Config} {depth : Nat} {caller : Caller}

/-- Handing arguments to a caller that agrees with the interpreter. -/
theorem call (hcaller : caller.Follows cfg depth) {args : EvalM (List Value)}
    {flat : NameMap Value → Except EvalError (List Value)} (hread : EvalM.Reads args)
    (hargs : EvalM.Follows depth args flat) (d : FuncDef Nat) :
    EvalM.Follows depth
      (match caller with
        | none => throw (.callDepthExceeded cfg.maxCallDepth)
        | some run => do
          let values ← args
          run d values)
      fun names =>
        if cfg.maxCallDepth ≤ depth then .error (.callDepthExceeded cfg.maxCallDepth)
        else do
          let values ← flat names
          let flow ←
            Flat.execAll cfg (depth + 1) (names.override (.ofList (d.params.zip values))) d.body
          return flow.value := by
  cases hcaller with
  | refuses h =>
    simp only [if_pos h]
    exact EvalM.follows_throw _
  | runs h hrun =>
    simp only [if_neg h]
    exact hargs.bind hread fun values => hrun d values

end Caller.Follows

section Expressions

variable {cfg : Config} {depth : Nat} {caller : Caller}

mutual

/-- Expressions agree with the interpreter if calls do. -/
theorem Expr.follows_eval (hread : caller.Reads) (hcaller : caller.Follows cfg depth) :
    ∀ e : Expr, EvalM.Follows depth (e.eval cfg caller) fun names => Flat.eval cfg depth names e
  | .none | .bool _ | .int _ => by
    simp only [Expr.eval, Flat.eval]
    exact EvalM.follows_pure _
  | .name id => by
    simp only [Expr.eval, Flat.eval]
    exact fun env => env.resolve_eq id
  | .unary op e => by
    cases op with
    | not =>
      simp only [Expr.eval, Flat.eval]
      exact (Expr.follows_eval hread hcaller e).bind (Expr.reads_eval hread e) fun _ =>
        EvalM.follows_pure _
    | neg | pos | bitNot | star =>
      simp only [Expr.eval, Flat.eval]
      exact EvalM.follows_throw _
  | .binary op a b => by
    simp only [Expr.eval, Flat.eval]
    cases op.meaning? cfg.truthiness with
    | none => exact EvalM.follows_throw _
    | some meaning =>
      exact (Expr.follows_eval hread hcaller a).bind (Expr.reads_eval hread a) fun _ =>
        (Expr.follows_eval hread hcaller b).bind (Expr.reads_eval hread b) fun _ =>
          EvalM.follows_ofExcept _
  | .ternary body condition orelse => by
    simp only [Expr.eval, Flat.eval]
    exact (Expr.follows_eval hread hcaller condition).bind (Expr.reads_eval hread condition)
      fun _ => (Expr.follows_eval hread hcaller body).ite (Expr.follows_eval hread hcaller orelse)
  | .call callee args => by
    simp only [Expr.eval, Flat.eval]
    refine (Expr.follows_eval hread hcaller callee).bind (Expr.reads_eval hread callee) fun v =>
      (EvalM.follows_ofExcept _).bind (EvalM.reads_ofExcept _) fun d => ?_
    have hargs := hcaller.call (Expr.reads_evalAll hread args)
      (Expr.follows_evalAll hread hcaller args) d
    exact hargs.ite (EvalM.follows_throw _)

/-- Several expressions agree with the interpreter if calls do. -/
theorem Expr.follows_evalAll (hread : caller.Reads) (hcaller : caller.Follows cfg depth) :
    ∀ es : List Expr,
      EvalM.Follows depth (Expr.evalAll cfg caller es) fun names => Flat.evalAll cfg depth names es
  | [] => by
    simp only [Expr.evalAll, Flat.evalAll]
    exact EvalM.follows_pure _
  | e :: es => by
    simp only [Expr.evalAll, Flat.evalAll]
    exact (Expr.follows_eval hread hcaller e).bind (Expr.reads_eval hread e) fun _ =>
      (Expr.follows_evalAll hread hcaller es).bind (Expr.reads_evalAll hread es) fun _ =>
        EvalM.follows_pure _

end

/-- Assertions agree with the interpreter if calls do. -/
theorem Expr.follows_assertAll (hread : caller.Reads) (hcaller : caller.Follows cfg depth)
    (es : List Expr) :
    EvalM.Follows depth (Expr.assertAll cfg caller es) fun names =>
      Flat.assertAll cfg depth names es := by
  induction es with
  | nil =>
    simp only [Expr.assertAll, Flat.assertAll]
    exact EvalM.follows_pure _
  | cons e es ih =>
    simp only [Expr.assertAll, Flat.assertAll]
    exact (Expr.follows_eval hread hcaller e).bind (Expr.reads_eval hread e) fun _ =>
      ih.ite (EvalM.follows_throw _)

end Expressions

/-! ### Steps of statements -/

/-- What the outcome of a step of a statement is to the interpreter: a return on top of the stack is
the early exit with its value, and without one running goes on with the visible names. -/
def Machine.flow : Except EvalError Bool × Machine → Except EvalError Flat.Flow
  | (.error e, _) => .error e
  | (.ok _, m) =>
    match m.env.frames with
    | .ret value :: _ => .ok (.returned value)
    | _ => .ok (.next m.env.visible)

/-- A body gives its caller what the flow of its outcome gives. -/
theorem FuncDef.result_eq (outcome : Except EvalError Bool × Machine) :
    FuncDef.result outcome = (Machine.flow outcome).map Flat.Flow.value := by
  obtain ⟨posted | e, ⟨frames⟩, depth⟩ := outcome
  · rfl
  · match frames with
    | [] | .scope _ :: _ | .ret _ :: _ => rfl

namespace EvalM

variable {α : Type} {depth : Nat} {names : List String}

/-- With `depth` calls in progress and a scope on top, the flow of the step's outcome is a given
function of the visible names. -/
def Flows (depth : Nat) (step : EvalM Bool) (flat : NameMap Value → Except EvalError Flat.Flow) :
    Prop :=
  ∀ (b : NameMap Value) (rest : List Frame),
    Machine.flow (step ⟨⟨.scope b :: rest⟩, depth⟩) = flat (Environment.visible ⟨.scope b :: rest⟩)

/-- Doing nothing goes on with the same names. -/
theorem flows_pure : Flows depth (pure false) fun names => .ok (.next names) :=
  fun _ _ => rfl

/-- A step that only reads, before a step of a statement. -/
theorem Follows.flows_bind {step : EvalM α} {next : α → EvalM Bool}
    {flat : NameMap Value → Except EvalError α}
    {flatNext : α → NameMap Value → Except EvalError Flat.Flow} (hread : Reads step)
    (hstep : Follows depth step flat) (hnext : ∀ a, Flows depth (next a) (flatNext a)) :
    Flows depth (step >>= next) fun names => flat names >>= fun a => flatNext a names := by
  intro b rest
  show _ = flat _ >>= fun a => flatNext a _
  rw [bind_apply, hread.eq, hstep]
  cases flat (Environment.visible ⟨.scope b :: rest⟩) with
  | ok a => exact hnext a b rest
  | error e => rfl

/-- Binding a name on top updates the names. -/
theorem flows_define (name : String) (value : Value) :
    Flows depth
      (do
        changes (·.define name value)
        return false)
      fun names => .ok (.next (names.insert name value)) := by
  intro b rest
  exact congrArg (fun names => Except.ok (Flat.Flow.next names))
    (Environment.visible_define b rest name value)

/-- Posting a return exits early with its value. -/
theorem flows_post (value : Value) :
    Flows depth
      (do
        push (.ret value)
        return true)
      fun _ => .ok (.returned value) :=
  fun _ _ => rfl

/-- A choice that does not depend on the names. -/
theorem Flows.ite {c : Prop} [Decidable c] {step step' : EvalM Bool}
    {flat flat' : NameMap Value → Except EvalError Flat.Flow} (hstep : Flows depth step flat)
    (hstep' : Flows depth step' flat') :
    Flows depth (if c then step else step') fun names => if c then flat names else flat' names := by
  split
  · exact hstep
  · exact hstep'

/-- One step of a statement after another, which runs unless the first posts a return. -/
theorem Flows.andThen {step rest : EvalM Bool}
    {flat flatRest : NameMap Value → Except EvalError Flat.Flow} (hsettle : Settles names step)
    (hstep : Flows depth step flat) (hrest : Flows depth rest flatRest) :
    Flows depth
      (do
        if ← step then return true else rest)
      fun names => do
        match ← flat names with
        | .next names => flatRest names
        | .returned value => return .returned value := by
  intro b frames
  have hm := hsettle ⟨⟨.scope b :: frames⟩, depth⟩
  have hflow := hstep b frames
  show _ = flat _ >>= _
  rw [bind_apply, ← hflow]
  generalize step ⟨⟨.scope b :: frames⟩, depth⟩ = outcome at hm ⊢
  cases hm with
  | next h =>
    -- The scope is still on top, so the rest runs on the names that are visible now.
    obtain ⟨b', -, rfl⟩ := h.exists_scope
    exact hrest b' frames
  | posted h value => rfl
  | failed h e => rfl

end EvalM

section Statements

variable {cfg : Config} {depth : Nat} {caller : Caller}

mutual

/-- Statements agree with the interpreter if calls do. -/
theorem Stmt.flows_exec (hread : caller.Reads) (hcaller : caller.Follows cfg depth) :
    ∀ s : Stmt Nat, EvalM.Flows depth (s.exec cfg caller) fun names => Flat.exec cfg depth names s
  | .assign _ _ none => by
    simp only [Stmt.exec, Flat.exec]
    exact EvalM.flows_pure
  | .assign target _ (some e) => by
    simp only [Stmt.exec, Flat.exec]
    exact (Expr.follows_eval hread hcaller e).flows_bind (Expr.reads_eval hread e)
      (EvalM.flows_define target)
  | .assert es => by
    simp only [Stmt.exec, Flat.exec]
    exact (Expr.follows_assertAll hread hcaller es).flows_bind (Expr.reads_assertAll hread es)
      fun _ => EvalM.flows_pure
  | .cond condition body none => by
    simp only [Stmt.exec, Flat.exec]
    exact (Expr.follows_eval hread hcaller condition).flows_bind (Expr.reads_eval hread condition)
      fun _ => (Stmt.flows_execAll hread hcaller body).ite EvalM.flows_pure
  | .cond condition body (some orelse) => by
    simp only [Stmt.exec, Flat.exec]
    exact (Expr.follows_eval hread hcaller condition).flows_bind (Expr.reads_eval hread condition)
      fun _ => (Stmt.flows_execAll hread hcaller body).ite (Stmt.flows_execAll hread hcaller orelse)
  | .ret none => by
    simp only [Stmt.exec, Flat.exec]
    exact EvalM.flows_post Value.none
  | .ret (some e) => by
    simp only [Stmt.exec, Flat.exec]
    exact (Expr.follows_eval hread hcaller e).flows_bind (Expr.reads_eval hread e) EvalM.flows_post
  | .funcDef tag name params body => by
    simp only [Stmt.exec, Flat.exec]
    exact EvalM.flows_define name _
  | .simple stmts => by
    simp only [Stmt.exec, Flat.exec]
    exact Stmt.flows_execAll hread hcaller stmts
  | .expr e => by
    simp only [Stmt.exec, Flat.exec]
    exact (Expr.follows_eval hread hcaller e).flows_bind (Expr.reads_eval hread e)
      fun _ => EvalM.flows_pure
  | .pass => by
    simp only [Stmt.exec, Flat.exec]
    exact EvalM.flows_pure

/-- Several statements agree with the interpreter if calls do. -/
theorem Stmt.flows_execAll (hread : caller.Reads) (hcaller : caller.Follows cfg depth) :
    ∀ ss : List (Stmt Nat),
      EvalM.Flows depth (Stmt.execAll cfg caller ss) fun names => Flat.execAll cfg depth names ss
  | [] => by
    simp only [Stmt.execAll, Flat.execAll]
    exact EvalM.flows_pure
  | s :: ss => by
    simp only [Stmt.execAll, Flat.execAll]
    exact (Stmt.flows_exec hread hcaller s).andThen
      (Stmt.settles_exec hread s (List.Subset.refl _)) (Stmt.flows_execAll hread hcaller ss)

end

end Statements

/-! ### Calls -/

/-- A call agrees with the interpreter if the calls in its body do. -/
theorem FuncDef.follows_runCall {cfg : Config} {depth : Nat} {caller : Caller}
    (hread : caller.Reads) (hcaller : caller.Follows cfg (depth + 1)) (d : FuncDef Nat)
    (values : List Value) :
    EvalM.Follows depth (d.runCall cfg caller values) fun names => do
      let flow ← Flat.execAll cfg (depth + 1)
        (names.override (.ofList (d.params.zip values))) d.body
      return flow.value := by
  intro env
  -- The body starts on the scope of its parameters, whose visible names are those overridden.
  have hbody := Stmt.flows_execAll hread hcaller d.body (.ofList (d.params.zip values)) env.frames
  rw [runCall_eq hread, result_eq]
  exact congrArg (Except.map Flat.Flow.value) hbody

/-- The callers of evaluation agree with the interpreter, whatever the number of calls in
progress. -/
theorem Caller.follows_atDepth (cfg : Config) (depth : Nat) :
    (Caller.atDepth cfg depth).Follows cfg depth := by
  -- The induction is on the number of calls that the limit leaves.
  by_cases h : cfg.maxCallDepth ≤ depth
  · rw [atDepth_of_le h]
    exact .refuses h
  · rw [atDepth_of_lt (Nat.lt_of_not_le h)]
    refine .runs h fun d values => ?_
    exact d.follows_runCall (Caller.reads_atDepth cfg _) (Caller.follows_atDepth cfg (depth + 1))
      values
  termination_by cfg.maxCallDepth - depth

/-- Evaluation gives the value or the error that the interpreter gives on the visible names, each of
which is mapped to what it resolves to. So the outcome depends on the stack only through the
resolution of names. -/
theorem Evaluator.evaluate_refines (ev : Evaluator) (e : Expr) :
    (ev.evaluate e).1 = Flat.eval ev.config ev.callDepth ev.env.visible e ∧
      (∀ name, ev.env.resolve name =
        match ev.env.visible.get? name with
        | some value => .ok value
        | none => .error (.nameNotFound name)) ∧
      ∀ env : Environment, (∀ name, ev.env.resolve name = env.resolve name) →
        (({ ev with env } : Evaluator).evaluate e).1 = (ev.evaluate e).1 := by
  have hflat (ev : Evaluator) :
      (ev.evaluate e).1 = Flat.eval ev.config ev.callDepth ev.env.visible e :=
    Expr.follows_eval (Caller.reads_atDepth ev.config ev.callDepth)
      (Caller.follows_atDepth ev.config ev.callDepth) e ev.env
  -- Stacks that resolve alike have the same visible names, and the interpreter sees nothing else.
  refine ⟨hflat ev, ev.env.resolve_eq, fun env h => ?_⟩
  rw [hflat, hflat, Environment.visible_congr h]

/-- A pending return on top and a binding that another one shadows make no difference to a call
whose body reads a name of its caller. -/
theorem Evaluator.evaluate_of_shadowed :
    let d : FuncDef Nat := ⟨0, "f", ["y"], [.ret (some (.binary .add (.name "y") (.name "x")))]⟩
    let lower : NameMap Value := NameMap.empty.insert "f" (.function d)
    let ev : Evaluator :=
      { config := {}
        env := ⟨[.ret (.int 7), .scope (NameMap.empty.insert "x" (.int 2)),
          .scope (lower.insert "x" (.int 1))]⟩ }
    let env : Environment := ⟨[.scope (lower.insert "x" (.int 2))]⟩
    (∀ name, ev.env.resolve name = env.resolve name) ∧
      (({ ev with env } : Evaluator).evaluate (.call (.name "f") [.int 40])).1 = .ok (.int 42) ∧
      (ev.evaluate (.call (.name "f") [.int 40])).1 = .ok (.int 42) := by
  intro d lower ev env
  have hresolve : ∀ name, ev.env.resolve name = env.resolve name := by
    intro name
    by_cases hx : name = "x" <;>
      simp [ev, env, Environment.resolve, Environment.lookup?, Frame.get?, NameMap.get?_insert, hx]
  have hvalue : (({ ev with env } : Evaluator).evaluate (.call (.name "f") [.int 40])).1 =
      .ok (.int 42) := rfl
  exact ⟨hresolve, hvalue, ((evaluate_refines ev _).2.2 env hresolve).symm.trans hvalue⟩

end ScopeScript
