import ScopeScript.Evaluation.Evaluator

/-!
# What a run leaves on the frame stack

Expressions leave everything as they found it, statements at most rebind names in a scope on top and
post one return above it. The facts about expressions rest on the same facts about calls, whose
bodies are statements, so they are proved for any caller that leaves everything as it found it and
then for the callers of evaluation, by induction on the number of calls allowed.

* `EvalM.Reads`: a step that leaves the stack and the number of calls in progress as they were,
  whatever its outcome.
* `Environment.Rebinds`: two stacks that differ at most in what a scope on top binds to given names.
* `EvalM.Settles`: a step that rebinds given names and posts a return exactly when it says so.

Main statements:

* `Expr.reads_eval` and `Stmt.settles_exec`: expressions read, statements settle.
* `FuncDef.runCall_eq`: a call gives what its body comes to and takes all its frames off the stack
  again, also when the body fails.
* `Caller.reads_atDepth`: whatever the number of calls in progress, calls only read.
* `Evaluator.evaluate_binary`: both operands of an operator are evaluated on one evaluator.
-/

namespace ScopeScript

/-! ### Steps that only read -/

namespace EvalM

variable {α β : Type}

/-- The step leaves the stack and the number of calls in progress as they were, whether it succeeds
or fails. -/
def Reads (step : EvalM α) : Prop :=
  ∀ m, (step m).2 = m

/-- A step that reads gives some outcome on an unchanged machine. -/
theorem Reads.eq {step : EvalM α} (h : Reads step) (m : Machine) : step m = ((step m).1, m) :=
  Prod.ext rfl (h m)

/-- A known result only reads. -/
theorem reads_pure (a : α) : Reads (pure a : EvalM α) :=
  fun _ => rfl

/-- A failure only reads. -/
theorem reads_throw (e : EvalError) : Reads (throw e : EvalM α) :=
  fun _ => rfl

/-- An outcome that is already known only reads. -/
theorem reads_ofExcept (result : Except EvalError α) : Reads (ofExcept result) :=
  fun _ => rfl

/-- A look at the stack only reads. -/
theorem reads_asks (f : Environment → Except EvalError α) : Reads (asks f) :=
  fun _ => rfl

/-- Two steps in a row only read if both do. -/
theorem Reads.bind {step : EvalM α} {next : α → EvalM β} (hstep : Reads step)
    (hnext : ∀ a, Reads (next a)) : Reads (step >>= next) := by
  intro m
  rw [bind_apply, hstep.eq m]
  cases (step m).1 with
  | ok a => exact hnext a m
  | error e => rfl

/-- After a step that only reads, the next one gives what it gives on the machine before. -/
theorem Reads.fst_bind {step : EvalM α} (h : Reads step) (next : α → EvalM β) (m : Machine) :
    ((step >>= next) m).1 = (step m).1.bind fun a => (next a m).1 := by
  rw [bind_apply, h.eq m]
  cases (step m).1 <;> rfl

end EvalM

/-- The caller, where there is one, leaves everything as it found it. -/
def Caller.Reads (caller : Caller) : Prop :=
  ∀ run, caller = some run → ∀ d values, EvalM.Reads (run d values)

/-- Handing arguments that only read to a caller that only reads. -/
theorem Caller.Reads.run {caller : Caller} (hcaller : caller.Reads) {e : EvalError}
    {args : EvalM (List Value)} (hargs : EvalM.Reads args) (d : FuncDef Nat) :
    EvalM.Reads (match caller with
      | none => throw e
      | some run => do
        let values ← args
        run d values) := by
  cases caller with
  | none => exact EvalM.reads_throw e
  | some run => exact hargs.bind fun values => hcaller run rfl d values

mutual

/-- Expressions only read if calls do. -/
theorem Expr.reads_eval {cfg : Config} {caller : Caller} (hcaller : caller.Reads) :
    ∀ e : Expr, EvalM.Reads (e.eval cfg caller)
  | .none | .bool _ | .int _ => by
    simp only [Expr.eval]
    exact EvalM.reads_pure _
  | .name _ => by
    rw [Expr.eval]
    exact EvalM.reads_asks _
  | .unary op e => by
    cases op with
    | not =>
      rw [Expr.eval]
      exact (Expr.reads_eval hcaller e).bind fun _ => EvalM.reads_pure _
    | neg | pos | bitNot | star =>
      simp only [Expr.eval]
      exact EvalM.reads_throw _
  | .binary op a b => by
    rw [Expr.eval]
    split
    · exact (Expr.reads_eval hcaller a).bind fun _ =>
        (Expr.reads_eval hcaller b).bind fun _ => EvalM.reads_ofExcept _
    · exact EvalM.reads_throw _
  | .ternary body condition orelse => by
    rw [Expr.eval]
    refine (Expr.reads_eval hcaller condition).bind fun v => ?_
    split
    · exact Expr.reads_eval hcaller body
    · exact Expr.reads_eval hcaller orelse
  | .call callee args => by
    rw [Expr.eval]
    -- The arguments are evaluated only once the callee is known to take as many.
    refine (Expr.reads_eval hcaller callee).bind fun v =>
      (EvalM.reads_ofExcept _).bind fun d => ?_
    split
    · exact hcaller.run (Expr.reads_evalAll hcaller args) d
    · exact EvalM.reads_throw _

/-- Several expressions only read if calls do. -/
theorem Expr.reads_evalAll {cfg : Config} {caller : Caller} (hcaller : caller.Reads) :
    ∀ es : List Expr, EvalM.Reads (Expr.evalAll cfg caller es)
  | [] => by
    rw [Expr.evalAll]
    exact EvalM.reads_pure _
  | e :: es => by
    rw [Expr.evalAll]
    exact (Expr.reads_eval hcaller e).bind fun _ => (Expr.reads_evalAll hcaller es).bind fun _ =>
      EvalM.reads_pure _

end

/-- An operator with a meaning is applied to what both operands come to on one machine, since the
left one leaves it to the right one as it was. -/
theorem Expr.eval_binary {cfg : Config} {caller : Caller} {a b : Expr} {m : Machine}
    {op : BinaryOp} {meaning : Value → Value → Except EvalError Value}
    (hcaller : caller.Reads) (hop : op.meaning? cfg.truthiness = some meaning) :
    ((binary op a b).eval cfg caller m).1 =
      (a.eval cfg caller m).1.bind fun x => (b.eval cfg caller m).1.bind fun y => meaning x y := by
  rw [eval]
  simp only [hop]
  -- Each operand leaves the machine as it was, so that the next one is evaluated on it as well.
  rw [(reads_eval hcaller a).fst_bind]
  congr 1
  funext x
  rw [(reads_eval hcaller b).fst_bind]
  rfl

/-- Assertions only read if calls do. -/
theorem Expr.reads_assertAll {cfg : Config} {caller : Caller} (hcaller : caller.Reads)
    (es : List Expr) : EvalM.Reads (Expr.assertAll cfg caller es) := by
  induction es with
  | nil => exact EvalM.reads_pure _
  | cons e es ih =>
    rw [Expr.assertAll]
    refine (Expr.reads_eval hcaller e).bind fun v => ?_
    split
    · exact ih
    · exact EvalM.reads_throw _

/-! ### Stacks that differ in the top scope -/

/-- The second map has every name of the first, and differs from it at most in `names`. -/
structure NameMap.ChangesOnly {α : Type} (names : List String) (b b' : NameMap α) : Prop where
  /-- No name is lost. -/
  kept : ∀ name, (b.get? name).isSome → (b'.get? name).isSome
  /-- The names not given keep their values. -/
  others : ∀ name, name ∉ names → b'.get? name = b.get? name

namespace NameMap.ChangesOnly

variable {α : Type} {names : List String} {b b' b'' : NameMap α}

/-- A map that stays as it is. -/
protected theorem refl (b : NameMap α) : ChangesOnly names b b :=
  ⟨fun _ h => h, fun _ _ => rfl⟩

/-- Changes of the same names one after the other. -/
protected theorem trans (h : ChangesOnly names b b') (h' : ChangesOnly names b' b'') :
    ChangesOnly names b b'' :=
  ⟨fun name hb => h'.kept name (h.kept name hb),
    fun name hn => (h'.others name hn).trans (h.others name hn)⟩

/-- An insertion changes the name it sets. -/
theorem insert {name : String} (hname : name ∈ names) (b : NameMap α) (value : α) :
    ChangesOnly names b (b.insert name value) where
  kept k hk := by
    by_cases h : k = name
    · simp [h]
    · simpa [NameMap.get?_insert_of_ne _ _ h] using hk
  others k hk := by
    have hne : k ≠ name := fun h => hk (h ▸ hname)
    exact NameMap.get?_insert_of_ne _ _ hne

end NameMap.ChangesOnly

namespace Environment

/-- The second stack is the first, save for what a scope on top binds to `names`. -/
inductive Rebinds (names : List String) : Environment → Environment → Prop where
  /-- Nothing is rebound. -/
  | same (env : Environment) : Rebinds names env env
  /-- A scope is on top before and after, with the same frames below it. -/
  | top {b b' : NameMap Value} (rest : List Frame) (h : b.ChangesOnly names b') :
    Rebinds names ⟨.scope b :: rest⟩ ⟨.scope b' :: rest⟩

namespace Rebinds

variable {names : List String} {env env' env'' : Environment}

/-- Rebindings of the same names one after the other. -/
protected theorem trans (h : Rebinds names env env') (h' : Rebinds names env' env'') :
    Rebinds names env env'' := by
  cases h with
  | same => exact h'
  | top rest hb =>
    cases h' with
    | same => exact .top rest hb
    | top _ hb' => exact .top rest (hb.trans hb')

/-- A rebinding leaves the number of frames. -/
theorem depth_eq (h : env.Rebinds names env') : env'.depth = env.depth := by
  cases h <;> rfl

/-- A name bound in the top frame. -/
theorem of_define {name : String} (hname : name ∈ names) {value : Value}
    (h : env.define name value = .ok env') : Rebinds names env env' := by
  obtain ⟨frames⟩ := env
  match frames with
  | [] => simp [define] at h
  | .ret _ :: _ => simp [define] at h
  | .scope b :: rest =>
    obtain rfl : ⟨.scope (b.insert name value) :: rest⟩ = env' := by simpa [define] using h
    exact .top rest (.insert hname b value)

/-- A scope on top stays on top of the same frames. -/
theorem exists_scope {b : NameMap Value} {rest : List Frame}
    (h : Rebinds names ⟨.scope b :: rest⟩ env') :
    ∃ b', b.ChangesOnly names b' ∧ env' = ⟨.scope b' :: rest⟩ := by
  cases h with
  | same => exact ⟨b, .refl b, rfl⟩
  | top _ hb => exact ⟨_, hb, rfl⟩

end Rebinds

end Environment

/-! ### Steps of statements -/

/-- A machine and the outcome of a step that says whether it posted a return: at most `names` are
rebound in a scope on top, a posted return is the one frame above, and the number of calls in
progress is as before. -/
inductive Machine.Settled (names : List String) (m : Machine) :
    Except EvalError Bool × Machine → Prop where
  /-- Running goes on. -/
  | next {env : Environment} (h : m.env.Rebinds names env) :
    Settled names m (.ok false, { m with env })
  /-- A return is posted. -/
  | posted {env : Environment} (h : m.env.Rebinds names env) (value : Value) :
    Settled names m (.ok true, { m with env := env.push (.ret value) })
  /-- The step fails. -/
  | failed {env : Environment} (h : m.env.Rebinds names env) (e : EvalError) :
    Settled names m (.error e, { m with env })

namespace EvalM

variable {α : Type} {names : List String}

/-- The step rebinds at most `names` in a scope on top, and posts a return exactly when it says
so. -/
def Settles (names : List String) (step : EvalM Bool) : Prop :=
  ∀ m, Machine.Settled names m (step m)

/-- Doing nothing settles. -/
theorem settles_pure : Settles names (pure false) :=
  fun m => .next (.same m.env)

/-- Reading before a step that settles. -/
theorem Reads.settles_bind {step : EvalM α} {next : α → EvalM Bool} (hstep : Reads step)
    (hnext : ∀ a, Settles names (next a)) : Settles names (step >>= next) := by
  intro m
  rw [bind_apply, hstep.eq m]
  cases (step m).1 with
  | ok a => exact hnext a m
  | error e => exact .failed (.same m.env) e

/-- Binding a name on top. -/
theorem settles_define {name : String} (hname : name ∈ names) (value : Value) :
    Settles names (do
      changes (·.define name value)
      return false) := by
  intro m
  rw [bind_apply, changes]
  cases h : m.env.define name value with
  | ok env => exact .next (.of_define hname h)
  | error e => exact .failed (.same m.env) e

/-- Posting a return. -/
theorem settles_post (value : Value) :
    Settles names (do
      push (.ret value)
      return true) :=
  fun m => .posted (.same m.env) value

/-- A step that settles after another, which runs unless the first posts a return. -/
theorem Settles.andThen {step rest : EvalM Bool} (hstep : Settles names step)
    (hrest : Settles names rest) :
    Settles names (do
      if ← step then return true else rest) := by
  intro m
  have hm := hstep m
  rw [bind_apply]
  generalize step m = outcome at hm ⊢
  cases hm with
  | posted h value => exact .posted h value
  | failed h e => exact .failed h e
  | @next env h =>
    -- What the rest rebinds comes on top of what the first step rebound.
    have hm' := hrest { m with env }
    show Machine.Settled names m (rest { m with env })
    generalize rest { m with env } = outcome' at hm' ⊢
    cases hm' with
    | next h' => exact .next (h.trans h')
    | posted h' value => exact .posted (h.trans h') value
    | failed h' e => exact .failed (h.trans h') e

end EvalM

mutual

/-- The names that a statement may bind: the targets of its assignments with a value and the names
of its definitions, those in the bodies of its definitions left out. -/
def Stmt.bound {δ : Type} : Stmt δ → List String
  | .assign target _ (some _) => [target]
  | .assign _ _ none => []
  | .assert _ => []
  | .cond _ body none => Stmt.boundAll body
  | .cond _ body (some orelse) => Stmt.boundAll body ++ Stmt.boundAll orelse
  | .ret _ => []
  | .funcDef _ name _ _ => [name]
  | .simple stmts => Stmt.boundAll stmts
  | .expr _ => []
  | .pass => []

/-- The names that several statements may bind. -/
def Stmt.boundAll {δ : Type} : List (Stmt δ) → List String
  | [] => []
  | s :: ss => Stmt.bound s ++ Stmt.boundAll ss

end

mutual

/-- Statements settle if calls only read. -/
theorem Stmt.settles_exec {cfg : Config} {caller : Caller} (hcaller : caller.Reads)
    {names : List String} :
    ∀ s : Stmt Nat, s.bound ⊆ names → EvalM.Settles names (s.exec cfg caller)
  | .assign _ _ none, _ => by
    rw [Stmt.exec]
    exact EvalM.settles_pure
  | .assign target _ (some e), hs => by
    rw [Stmt.exec]
    have htarget : target ∈ names := hs (by simp [Stmt.bound])
    exact (Expr.reads_eval hcaller e).settles_bind fun v => EvalM.settles_define htarget v
  | .assert es, _ => by
    rw [Stmt.exec]
    exact (Expr.reads_assertAll hcaller es).settles_bind fun _ => EvalM.settles_pure
  | .cond condition body none, hs => by
    rw [Stmt.exec]
    refine (Expr.reads_eval hcaller condition).settles_bind fun v => ?_
    split
    · exact Stmt.settles_execAll hcaller body hs
    · exact EvalM.settles_pure
  | .cond condition body (some orelse), hs => by
    rw [Stmt.exec]
    rw [Stmt.bound, List.append_subset] at hs
    refine (Expr.reads_eval hcaller condition).settles_bind fun v => ?_
    split
    · exact Stmt.settles_execAll hcaller body hs.1
    · exact Stmt.settles_execAll hcaller orelse hs.2
  | .ret none, _ => by
    rw [Stmt.exec]
    exact (EvalM.reads_pure Value.none).settles_bind EvalM.settles_post
  | .ret (some e), _ => by
    rw [Stmt.exec]
    exact (Expr.reads_eval hcaller e).settles_bind EvalM.settles_post
  | .funcDef _ name _ _, hs => by
    rw [Stmt.exec]
    exact EvalM.settles_define (hs (by simp [Stmt.bound])) _
  | .simple stmts, hs => by
    rw [Stmt.exec]
    exact Stmt.settles_execAll hcaller stmts hs
  | .expr e, _ => by
    rw [Stmt.exec]
    exact (Expr.reads_eval hcaller e).settles_bind fun _ => EvalM.settles_pure
  | .pass, _ => by
    rw [Stmt.exec]
    exact EvalM.settles_pure

/-- Several statements settle if calls only read. -/
theorem Stmt.settles_execAll {cfg : Config} {caller : Caller} (hcaller : caller.Reads)
    {names : List String} :
    ∀ ss : List (Stmt Nat), Stmt.boundAll ss ⊆ names →
      EvalM.Settles names (Stmt.execAll cfg caller ss)
  | [], _ => by
    rw [Stmt.execAll]
    exact EvalM.settles_pure
  | s :: ss, hs => by
    rw [Stmt.execAll]
    -- Each of the two rebinds no more than the names of both.
    rw [Stmt.boundAll, List.append_subset] at hs
    exact (Stmt.settles_exec hcaller s hs.1).andThen (Stmt.settles_execAll hcaller ss hs.2)

end

/-! ### Calls -/

/-- The machine on which the body of a called function starts: the parameters are bound in a scope
of their own, and one more call is in progress. -/
def FuncDef.entry (d : FuncDef Nat) (values : List Value) (m : Machine) : Machine where
  env := m.env.push (.scope (.ofList (d.params.zip values)))
  callDepth := m.callDepth + 1

/-- What the outcome of a body gives its caller: the value of the return on top of the stack, `None`
if none was posted, or the error of the body. -/
def FuncDef.result : Except EvalError Bool × Machine → Except EvalError Value
  | (.error e, _) => .error e
  | (.ok _, m) =>
    match m.env.frames with
    | .ret value :: _ => .ok value
    | _ => .ok .none

/-- A body that ends without a return, and what its call takes off the stack. -/
theorem FuncDef.runBody_of_next {cfg : Config} {caller : Caller} {d : FuncDef Nat} {m : Machine}
    {b : NameMap Value} {rest : List Frame} {depth : Nat}
    (h : Stmt.execAll cfg caller d.body m = (.ok false, ⟨⟨.scope b :: rest⟩, depth⟩)) :
    d.runBody cfg caller m = (.ok .none, ⟨⟨rest⟩, depth⟩) := by
  rw [runBody, EvalM.bind_apply, h]
  rfl

/-- A body that posts a return, and what its call takes off the stack. -/
theorem FuncDef.runBody_of_posted {cfg : Config} {caller : Caller} {d : FuncDef Nat} {m : Machine}
    {b : NameMap Value} {rest : List Frame} {value : Value} {depth : Nat}
    (h : Stmt.execAll cfg caller d.body m =
      (.ok true, ⟨⟨.ret value :: .scope b :: rest⟩, depth⟩)) :
    d.runBody cfg caller m = (.ok value, ⟨⟨rest⟩, depth⟩) := by
  rw [runBody, EvalM.bind_apply, h]
  rfl

/-- A body that fails. -/
theorem FuncDef.runBody_of_error {cfg : Config} {caller : Caller} {d : FuncDef Nat}
    {m m' : Machine} {e : EvalError}
    (h : Stmt.execAll cfg caller d.body m = (.error e, m')) :
    d.runBody cfg caller m = (.error e, m') := by
  rw [runBody, EvalM.bind_apply, h]

/-- The steps of a call around its body. -/
theorem FuncDef.runCall_apply (cfg : Config) (caller : Caller) (d : FuncDef Nat)
    (values : List Value) (m : Machine) :
    d.runCall cfg caller values m =
      match d.runBody cfg caller (d.entry values m) with
      | (.ok value, m') => (.ok value, ⟨m'.env, m'.callDepth - 1⟩)
      | (.error e, m') => (.error e, ⟨m'.env.truncate m.env.depth, m'.callDepth - 1⟩) := by
  rw [runCall, EvalM.cutBackOnFailure, EvalM.bind_apply]
  simp only [EvalM.push, EvalM.inCall]
  rw [← entry]
  rcases d.runBody cfg caller (d.entry values m) with ⟨value | e, m'⟩ <;> rfl

/-- A call gives what its body comes to and leaves everything as it found it: the frames that it put
on the stack are gone, whether the body ends, returns or fails. -/
theorem FuncDef.runCall_eq {cfg : Config} {caller : Caller} (hcaller : caller.Reads)
    (d : FuncDef Nat) (values : List Value) (m : Machine) :
    d.runCall cfg caller values m =
      (FuncDef.result (Stmt.execAll cfg caller d.body (d.entry values m)), m) := by
  have hsettles : EvalM.Settles (Stmt.boundAll d.body) (Stmt.execAll cfg caller d.body) :=
    Stmt.settles_execAll hcaller d.body (List.Subset.refl _)
  have hbody := hsettles (d.entry values m)
  rw [runCall_apply]
  generalize hout : Stmt.execAll cfg caller d.body (d.entry values m) = outcome at hbody
  cases hbody with
  | next h =>
    obtain ⟨b, -, rfl⟩ := h.exists_scope
    rw [runBody_of_next hout]
    rfl
  | posted h value =>
    obtain ⟨b, -, rfl⟩ := h.exists_scope
    -- The posted return and the scope of the call are popped one after the other.
    rw [runBody_of_posted hout]
    rfl
  | failed h e =>
    obtain ⟨b, -, rfl⟩ := h.exists_scope
    rw [runBody_of_error hout]
    -- Above the frames of the caller stands only the scope of the call.
    show (Except.error e, Machine.mk ((m.env.push (.scope b)).truncate m.env.depth) _) = _
    rw [Environment.truncate_push]
    rfl

/-- Calls only read if the calls in their bodies do. -/
theorem FuncDef.reads_runCall {cfg : Config} {caller : Caller} (hcaller : caller.Reads)
    (d : FuncDef Nat) (values : List Value) : EvalM.Reads (d.runCall cfg caller values) := by
  intro m
  rw [runCall_eq hcaller]

/-- However many calls are allowed, calls only read. -/
theorem Caller.reads_upTo (cfg : Config) (n : Nat) : (Caller.upTo cfg n).Reads := by
  induction n with
  | zero =>
    intro run h
    cases h
  | succ n ih =>
    intro run h d values
    obtain rfl := Option.some.inj h
    exact d.reads_runCall ih values

/-- Whatever the number of calls in progress, calls only read. -/
theorem Caller.reads_atDepth (cfg : Config) (callDepth : Nat) :
    (Caller.atDepth cfg callDepth).Reads :=
  Caller.reads_upTo cfg _

/-! ### Evaluators -/

/-- An operator with a meaning is applied to what both operands come to on one evaluator, which is
left as it was. -/
theorem Evaluator.evaluate_binary {ev : Evaluator} {op : BinaryOp}
    {meaning : Value → Value → Except EvalError Value} {a b : Expr}
    (hop : op.meaning? ev.config.truthiness = some meaning) :
    ev.evaluate (.binary op a b) =
      ((ev.evaluate a).1.bind fun x => (ev.evaluate b).1.bind fun y => meaning x y, ev) := by
  have hcaller := Caller.reads_atDepth ev.config ev.callDepth
  rw [evaluate, run, (Expr.reads_eval hcaller _).eq, Expr.eval_binary hcaller hop]
  rfl

/-- The evaluation of an expression leaves the evaluator as it was, whether it gives a value or
fails: every frame with its kind and its bindings, and the number of calls in progress. -/
theorem Evaluator.evaluate_leaves_evaluator (ev : Evaluator) (e : Expr) :
    (ev.evaluate e).2 = ev := by
  have hread : EvalM.Reads (e.eval ev.config (Caller.atDepth ev.config ev.callDepth)) :=
    Expr.reads_eval (Caller.reads_atDepth ev.config ev.callDepth) e
  rw [evaluate, run, hread.eq]

end ScopeScript
