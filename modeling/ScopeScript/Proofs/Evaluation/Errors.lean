import ScopeScript.Proofs.Evaluation.Frames

/-!
# Errors that a run can report

A running program fails for reasons of its own: a name that nothing binds, operands of the wrong
kinds, an assertion, the limit of its settings. The remaining errors belong to the evaluator and to
its host. No expression brings one of them about, whatever the stack holds, and no statement does
where a scope is on top.

* `EvalError.Internal`: the errors that are none of the program's own.
* `EvalError.Ordinary`: the errors that a program brings about under a limit.
* `Environment.Admits`: the errors that a statement brings about on a stack.

Main statements:

* `Expr.failsWith_eval` and `Stmt.failsOn_exec`: what expressions and statements fail with, for any
  caller that fails with ordinary errors alone.
* `Caller.failsWith_atDepth`: whatever the number of calls in progress, calls fail with ordinary
  errors alone.
-/

namespace ScopeScript

/-! ### Kinds of errors -/

namespace EvalError

/-- The errors of the evaluator itself and of its host. -/
def Internal : EvalError → Prop
  | stackDiscipline _ | returnOutsideFunction | hostArguments _ | notAFunction _ => True
  | _ => False

/-- The errors that a program brings about where `limit` calls may be in progress: no internal one,
and the limit only as it is set. -/
def Ordinary (limit : Nat) : EvalError → Prop
  | callDepthExceeded n => n = limit
  | stackDiscipline _ | returnOutsideFunction | hostArguments _ | notAFunction _ => False
  | _ => True

/-- What a program brings about is not internal. -/
theorem Ordinary.not_internal {limit : Nat} {e : EvalError} (h : e.Ordinary limit) :
    ¬ e.Internal := by
  cases e <;> first | exact id | exact absurd h id

end EvalError

namespace Value

variable {op : BinaryOp} {x y : Value} {e : EvalError}

/-- Arithmetic fails outside the words, or where an operand is no integer. -/
theorem ordinary_of_arithmetic {exact : Int → Int → Int}
    (h : arithmetic op exact x y = .error e) (limit : Nat) : e.Ordinary limit := by
  unfold arithmetic at h
  split at h
  · split at h
    · cases h
    · obtain rfl := Except.error.inj h
      trivial
  · obtain rfl := Except.error.inj h
    trivial

/-- A test of the order fails where an operand is no integer. -/
theorem ordinary_of_ordered {test : Int64 → Int64 → Bool} (h : ordered op test x y = .error e)
    (limit : Nat) : e.Ordinary limit := by
  unfold ordered at h
  split at h
  · cases h
  · obtain rfl := Except.error.inj h
    trivial

/-- A comparison fails on its operands, or because the operator is none. -/
theorem ordinary_of_compare (h : compare op x y = .error e) (limit : Nat) : e.Ordinary limit := by
  cases op with
  | eq | notEq | is | isNot => cases h
  | lt | le | gt | ge => exact ordinary_of_ordered h limit
  | _ =>
    obtain rfl := Except.error.inj h
    trivial

end Value

/-- A binary operator refuses operands with an error of the program. -/
theorem BinaryOp.ordinary_of_meaning? {mode : Truthiness} {op : BinaryOp}
    {meaning : Value → Value → Except EvalError Value} (h : op.meaning? mode = some meaning)
    {x y : Value} {e : EvalError} (he : meaning x y = .error e) (limit : Nat) :
    e.Ordinary limit := by
  by_cases hcomparison : op.isComparison = true
  · rw [meaning?_of_isComparison hcomparison] at h
    obtain rfl := Option.some.inj h
    dsimp only at he
    cases hresult : Value.compare op x y with
    | ok holds =>
      rw [hresult] at he
      cases he
    | error e' =>
      rw [hresult] at he
      obtain rfl := Except.error.inj he
      exact Value.ordinary_of_compare hresult limit
  · cases op with
    | or | and =>
      obtain rfl := Option.some.inj h
      cases he
    | add | sub =>
      obtain rfl := Option.some.inj h
      exact Value.ordinary_of_arithmetic he limit
    | eq | notEq | lt | le | gt | ge | isIn | notIn | is | isNot => exact absurd rfl hcomparison
    | _ => cases h

/-! ### Steps of expressions -/

namespace EvalM

variable {α β : Type} {P : EvalError → Prop}

/-- The step fails with no other errors than given ones. -/
def FailsWith (P : EvalError → Prop) (step : EvalM α) : Prop :=
  ∀ m e, (step m).1 = .error e → P e

/-- A known result does not fail. -/
theorem failsWith_pure (a : α) : FailsWith P (pure a : EvalM α) := by
  intro m e h
  cases h

/-- A failure. -/
theorem failsWith_throw {e : EvalError} (he : P e) : FailsWith P (throw e : EvalM α) := by
  intro m e' h
  obtain rfl := Except.error.inj h
  exact he

/-- An outcome that is already known. -/
theorem failsWith_ofExcept {result : Except EvalError α} (h : ∀ e, result = .error e → P e) :
    FailsWith P (ofExcept result) :=
  fun _ e he => h e he

/-- A look at the stack. -/
theorem failsWith_asks {f : Environment → Except EvalError α}
    (h : ∀ env e, f env = .error e → P e) : FailsWith P (asks f) :=
  fun m e he => h m.env e he

/-- Two steps in a row fail as the one or the other does. -/
theorem FailsWith.bind {step : EvalM α} {next : α → EvalM β} (hstep : FailsWith P step)
    (hnext : ∀ a, FailsWith P (next a)) : FailsWith P (step >>= next) := by
  intro m e h
  rw [bind_apply] at h
  rcases hout : step m with ⟨result | result, m'⟩ <;> rw [hout] at h
  · obtain rfl := Except.error.inj h
    exact hstep m result (congrArg Prod.fst hout)
  · exact hnext result m' e h

end EvalM

/-- The caller, where there is one, fails with errors of the program alone. -/
def Caller.FailsWith (limit : Nat) (caller : Caller) : Prop :=
  ∀ run, caller = some run → ∀ d values, EvalM.FailsWith (EvalError.Ordinary limit) (run d values)

section

variable {cfg : Config} {caller : Caller}

/-- Handing arguments to a caller, where there is one. -/
theorem Caller.FailsWith.run (hcaller : caller.FailsWith cfg.maxCallDepth)
    {args : EvalM (List Value)}
    (hargs : EvalM.FailsWith (EvalError.Ordinary cfg.maxCallDepth) args) (d : FuncDef Nat) :
    EvalM.FailsWith (EvalError.Ordinary cfg.maxCallDepth) (match caller with
      | none => throw (.callDepthExceeded cfg.maxCallDepth)
      | some run => do
        let values ← args
        run d values) := by
  cases caller with
  | none => exact EvalM.failsWith_throw rfl
  | some run => exact hargs.bind fun values => hcaller run rfl d values

mutual

/-- Expressions fail with errors of the program alone if calls do. -/
theorem Expr.failsWith_eval (hcaller : caller.FailsWith cfg.maxCallDepth) :
    ∀ e : Expr, EvalM.FailsWith (EvalError.Ordinary cfg.maxCallDepth) (e.eval cfg caller)
  | .none | .bool _ | .int _ => by
    simp only [Expr.eval]
    exact EvalM.failsWith_pure _
  | .name id => by
    rw [Expr.eval]
    refine EvalM.failsWith_asks fun env e he => ?_
    unfold Environment.resolve at he
    split at he
    · cases he
    · obtain rfl := Except.error.inj he
      trivial
  | .unary op e => by
    cases op with
    | not =>
      rw [Expr.eval]
      exact (Expr.failsWith_eval hcaller e).bind fun _ => EvalM.failsWith_pure _
    | neg | pos | bitNot | star =>
      simp only [Expr.eval]
      exact EvalM.failsWith_throw trivial
  | .binary op a b => by
    rw [Expr.eval]
    split
    · next meaning hmeaning =>
      refine (Expr.failsWith_eval hcaller a).bind fun x =>
        (Expr.failsWith_eval hcaller b).bind fun y => EvalM.failsWith_ofExcept fun e he => ?_
      exact BinaryOp.ordinary_of_meaning? hmeaning he _
    · exact EvalM.failsWith_throw trivial
  | .ternary body condition orelse => by
    rw [Expr.eval]
    refine (Expr.failsWith_eval hcaller condition).bind fun v => ?_
    split
    · exact Expr.failsWith_eval hcaller body
    · exact Expr.failsWith_eval hcaller orelse
  | .call callee args => by
    rw [Expr.eval]
    refine (Expr.failsWith_eval hcaller callee).bind fun v => ?_
    refine (EvalM.failsWith_ofExcept fun e he => ?_).bind fun d => ?_
    · -- What cannot be called is reported as such, not as the host's fault.
      cases v <;> cases he <;> trivial
    · -- The number of arguments is checked before the limit.
      split
      · exact hcaller.run (Expr.failsWith_evalAll hcaller args) d
      · exact EvalM.failsWith_throw trivial

/-- Several expressions fail with errors of the program alone if calls do. -/
theorem Expr.failsWith_evalAll (hcaller : caller.FailsWith cfg.maxCallDepth) :
    ∀ es : List Expr,
      EvalM.FailsWith (EvalError.Ordinary cfg.maxCallDepth) (Expr.evalAll cfg caller es)
  | [] => by
    rw [Expr.evalAll]
    exact EvalM.failsWith_pure _
  | e :: es => by
    rw [Expr.evalAll]
    exact (Expr.failsWith_eval hcaller e).bind fun _ =>
      (Expr.failsWith_evalAll hcaller es).bind fun _ => EvalM.failsWith_pure _

end

/-- Assertions fail with errors of the program alone if calls do. -/
theorem Expr.failsWith_assertAll (hcaller : caller.FailsWith cfg.maxCallDepth) (es : List Expr) :
    EvalM.FailsWith (EvalError.Ordinary cfg.maxCallDepth) (Expr.assertAll cfg caller es) := by
  induction es with
  | nil => exact EvalM.failsWith_pure _
  | cons e es ih =>
    rw [Expr.assertAll]
    refine (Expr.failsWith_eval hcaller e).bind fun v => ?_
    split
    · exact ih
    · exact EvalM.failsWith_throw trivial

end

/-! ### Steps of statements -/

namespace Environment

/-- A scope is on top. -/
def OnScope (env : Environment) : Prop :=
  ∃ b rest, env.frames = .scope b :: rest

/-- The errors that a statement brings about on a stack: those of the program, and where no scope is
on top that of a name which cannot be bound. -/
def Admits (limit : Nat) (env : Environment) (e : EvalError) : Prop :=
  e.Ordinary limit ∨ ¬ env.OnScope ∧ ∃ fault, e = .stackDiscipline fault

/-- A rebinding neither puts a scope on top nor takes it away. -/
theorem Rebinds.onScope_iff {names : List String} {env env' : Environment}
    (h : Rebinds names env env') : env'.OnScope ↔ env.OnScope := by
  cases h with
  | same => exact Iff.rfl
  | top rest hb => exact iff_of_true ⟨_, rest, rfl⟩ ⟨_, rest, rfl⟩

/-- A stack with a scope on top takes every binding, and no other stack takes one. -/
theorem not_onScope_of_define {env : Environment} {name : String} {value : Value} {e : EvalError}
    (h : env.define name value = .error e) :
    ¬ env.OnScope ∧ ∃ fault, e = .stackDiscipline fault := by
  unfold define at h
  split at h
  · next hframes =>
    refine ⟨?_, _, (Except.error.inj h).symm⟩
    rintro ⟨b, rest, hb⟩
    rw [hframes] at hb
    cases hb
  · next hframes =>
    refine ⟨?_, _, (Except.error.inj h).symm⟩
    rintro ⟨b, rest, hb⟩
    rw [hframes] at hb
    cases hb
  · cases h

end Environment

namespace EvalM

variable {α : Type} {limit : Nat}

/-- The step fails with no other errors than the stack that it starts on admits. -/
def FailsOn (limit : Nat) (step : EvalM α) : Prop :=
  ∀ m e, (step m).1 = .error e → m.env.Admits limit e

/-- Errors of the program are admitted by every stack. -/
theorem FailsWith.failsOn {step : EvalM α} (h : FailsWith (EvalError.Ordinary limit) step) :
    FailsOn limit step :=
  fun m e he => .inl (h m e he)

/-- A step that only reads before one that fails on the same stack. -/
theorem FailsOn.bind {β : Type} {step : EvalM α} {next : α → EvalM β} (hread : Reads step)
    (hstep : FailsWith (EvalError.Ordinary limit) step) (hnext : ∀ a, FailsOn limit (next a)) :
    FailsOn limit (step >>= next) := by
  intro m e h
  rw [bind_apply, hread.eq m] at h
  cases hresult : (step m).1 with
  | ok a =>
    rw [hresult] at h
    exact hnext a m e h
  | error e' =>
    rw [hresult] at h
    obtain rfl := Except.error.inj h
    exact .inl (hstep m e' hresult)

/-- Binding a name on top. -/
theorem failsOn_define (name : String) (value : Value) :
    FailsOn limit (do
      changes (·.define name value)
      return false) := by
  intro m e h
  rw [bind_apply, changes] at h
  cases hdefine : m.env.define name value with
  | ok env =>
    rw [hdefine] at h
    cases h
  | error e' =>
    rw [hdefine] at h
    obtain rfl := Except.error.inj h
    exact .inr (Environment.not_onScope_of_define hdefine)

/-- Posting a return does not fail. -/
theorem failsOn_post (value : Value) :
    FailsOn limit (do
      push (.ret value)
      return true) := by
  intro m e h
  cases h

/-- A step after another that settles, which keeps a scope on top for it. -/
theorem FailsOn.andThen {names : List String} {step rest : EvalM Bool}
    (hsettles : Settles names step) (hstep : FailsOn limit step) (hrest : FailsOn limit rest) :
    FailsOn limit (do
      if ← step then return true else rest) := by
  intro m e h
  rw [bind_apply] at h
  have hm := hsettles m
  have hfail := hstep m
  generalize step m = outcome at hm hfail h
  cases hm with
  | posted hb value => cases h
  | failed hb e' =>
    obtain rfl := Except.error.inj h
    exact hfail e' rfl
  | @next env hb =>
    -- The first step at most rebinds names, so its stack admits what the second stack does.
    have hadmits : env.Admits limit e := hrest { m with env } e h
    rw [Environment.Admits, hb.onScope_iff] at hadmits
    exact hadmits

end EvalM

section

variable {cfg : Config} {caller : Caller}

mutual

/-- Statements fail with the errors that their stack admits if calls fail with errors of the program
alone. -/
theorem Stmt.failsOn_exec (hread : caller.Reads) (hcaller : caller.FailsWith cfg.maxCallDepth) :
    ∀ s : Stmt Nat, EvalM.FailsOn cfg.maxCallDepth (s.exec cfg caller)
  | .assign _ _ none | .pass => by
    simp only [Stmt.exec]
    exact (EvalM.failsWith_pure false).failsOn
  | .assign target _ (some e) => by
    rw [Stmt.exec]
    exact .bind (Expr.reads_eval hread e) (Expr.failsWith_eval hcaller e) fun v =>
      EvalM.failsOn_define target v
  | .assert es => by
    rw [Stmt.exec]
    exact .bind (Expr.reads_assertAll hread es) (Expr.failsWith_assertAll hcaller es) fun _ =>
      (EvalM.failsWith_pure false).failsOn
  | .cond condition body none => by
    rw [Stmt.exec]
    refine .bind (Expr.reads_eval hread condition) (Expr.failsWith_eval hcaller condition)
      fun v => ?_
    split
    · exact Stmt.failsOn_execAll hread hcaller body
    · exact (EvalM.failsWith_pure false).failsOn
  | .cond condition body (some orelse) => by
    rw [Stmt.exec]
    refine .bind (Expr.reads_eval hread condition) (Expr.failsWith_eval hcaller condition)
      fun v => ?_
    split
    · exact Stmt.failsOn_execAll hread hcaller body
    · exact Stmt.failsOn_execAll hread hcaller orelse
  | .ret none => by
    rw [Stmt.exec]
    exact .bind (EvalM.reads_pure Value.none) (EvalM.failsWith_pure Value.none) EvalM.failsOn_post
  | .ret (some e) => by
    rw [Stmt.exec]
    exact .bind (Expr.reads_eval hread e) (Expr.failsWith_eval hcaller e) EvalM.failsOn_post
  | .funcDef _ name _ _ => by
    rw [Stmt.exec]
    exact EvalM.failsOn_define name _
  | .simple stmts => by
    rw [Stmt.exec]
    exact Stmt.failsOn_execAll hread hcaller stmts
  | .expr e => by
    rw [Stmt.exec]
    exact .bind (Expr.reads_eval hread e) (Expr.failsWith_eval hcaller e) fun _ =>
      (EvalM.failsWith_pure false).failsOn

/-- Several statements fail with the errors that their stack admits if calls fail with errors of the
program alone. -/
theorem Stmt.failsOn_execAll (hread : caller.Reads)
    (hcaller : caller.FailsWith cfg.maxCallDepth) :
    ∀ ss : List (Stmt Nat), EvalM.FailsOn cfg.maxCallDepth (Stmt.execAll cfg caller ss)
  | [] => by
    rw [Stmt.execAll]
    exact (EvalM.failsWith_pure false).failsOn
  | s :: ss => by
    rw [Stmt.execAll]
    exact .andThen (Stmt.settles_exec hread s (List.Subset.refl _))
      (Stmt.failsOn_exec hread hcaller s) (Stmt.failsOn_execAll hread hcaller ss)

end

/-! ### Calls -/

/-- Calls fail with errors of the program alone if the calls in their bodies do: a body starts with
the scope of its call on top. -/
theorem FuncDef.failsWith_runCall (hread : caller.Reads)
    (hcaller : caller.FailsWith cfg.maxCallDepth) (d : FuncDef Nat) (values : List Value) :
    EvalM.FailsWith (EvalError.Ordinary cfg.maxCallDepth) (d.runCall cfg caller values) := by
  intro m e h
  rw [runCall_eq hread] at h
  have hbody := Stmt.failsOn_execAll hread hcaller d.body (d.entry values m)
  generalize Stmt.execAll cfg caller d.body (d.entry values m) = outcome at hbody h
  obtain ⟨e' | posted, m'⟩ := outcome
  · obtain rfl := Except.error.inj h
    have hscope : (d.entry values m).env.OnScope := ⟨_, _, rfl⟩
    exact (hbody e' rfl).resolve_right fun hfault => hfault.1 hscope
  · -- A body that ends gives a value, posted or not.
    simp only [FuncDef.result] at h
    split at h <;> cases h

end

/-- However many calls are allowed, calls fail with errors of the program alone. -/
theorem Caller.failsWith_upTo (cfg : Config) (n : Nat) :
    (Caller.upTo cfg n).FailsWith cfg.maxCallDepth := by
  induction n with
  | zero =>
    intro run h
    cases h
  | succ n ih =>
    intro run h d values
    obtain rfl := Option.some.inj h
    exact d.failsWith_runCall (Caller.reads_upTo cfg n) ih values

/-- Whatever the number of calls in progress, calls fail with errors of the program alone. -/
theorem Caller.failsWith_atDepth (cfg : Config) (callDepth : Nat) :
    (Caller.atDepth cfg callDepth).FailsWith cfg.maxCallDepth :=
  Caller.failsWith_upTo cfg _

/-! ### Evaluators -/

namespace Evaluator

/-- Every error of an expression is one of the program. -/
theorem ordinary_of_evaluate {ev : Evaluator} {e : Expr} {err : EvalError}
    (h : (ev.evaluate e).1 = .error err) : err.Ordinary ev.config.maxCallDepth :=
  Expr.failsWith_eval (Caller.failsWith_atDepth ev.config ev.callDepth) e ev.toMachine err h

/-- Every error of a statement is admitted by the stack. -/
theorem admits_of_execute {ev : Evaluator} {s : Stmt Nat} {err : EvalError}
    (h : (ev.execute s).1 = .error err) : ev.env.Admits ev.config.maxCallDepth err :=
  Stmt.failsOn_exec (Caller.reads_atDepth ev.config ev.callDepth)
    (Caller.failsWith_atDepth ev.config ev.callDepth) s ev.toMachine err h

/-- Every error of a block is admitted by the stack. -/
theorem admits_of_executeBlock {ev : Evaluator} {b : Block Nat} {err : EvalError}
    (h : (ev.executeBlock b).1 = .error err) : ev.env.Admits ev.config.maxCallDepth err :=
  Stmt.failsOn_execAll (Caller.reads_atDepth ev.config ev.callDepth)
    (Caller.failsWith_atDepth ev.config ev.callDepth) b ev.toMachine err h

/-- A program gives what its statements give, except that a posted return is an error. -/
theorem executeModule_fst (ev : Evaluator) (program : Block Nat) :
    (ev.executeModule program).1 =
      match (ev.executeBlock program).1 with
      | .ok true => .error .returnOutsideFunction
      | .ok false => .ok ()
      | .error e => .error e := by
  have hsettles : EvalM.Settles (Stmt.boundAll program)
      (Stmt.execAll ev.config (Caller.atDepth ev.config ev.callDepth) program) :=
    Stmt.settles_execAll (Caller.reads_atDepth ev.config ev.callDepth) program (List.Subset.refl _)
  have hm := hsettles ev.toMachine
  simp only [executeModule, executeBlock, run, moduleStep, EvalM.bind_apply]
  generalize Stmt.execAll ev.config (Caller.atDepth ev.config ev.callDepth) program ev.toMachine =
    outcome at hm
  -- The return that was posted is there to be taken off the stack.
  cases hm <;> rfl

/-- A stack with a scope on top admits no internal error. -/
theorem not_internal_of_admits {limit : Nat} {env : Environment} {err : EvalError}
    (hscope : env.OnScope) (h : env.Admits limit err) : ¬ err.Internal :=
  (h.resolve_right fun hfault => hfault.1 hscope).not_internal

/-- No stack admits a return outside a function. -/
theorem ne_returnOutsideFunction_of_admits {limit : Nat} {env : Environment} {err : EvalError}
    (h : env.Admits limit err) : err ≠ .returnOutsideFunction := by
  rintro rfl
  rcases h with h | ⟨-, fault, h⟩
  · exact h
  · cases h

/-- Internal errors are out of reach. An expression brings none about on any stack. A return
outside a function is reported by a whole program alone, and exactly when its statements post a
return. Where a scope is on top, statements and blocks bring no internal error about, and a whole
program none but that one. -/
theorem internal_errors_unreachable (ev : Evaluator) :
    (∀ (e : Expr) (err : EvalError), (ev.evaluate e).1 = .error err → ¬ err.Internal) ∧
    (∀ s : Stmt Nat, (ev.execute s).1 ≠ .error .returnOutsideFunction) ∧
    (∀ b : Block Nat, (ev.executeBlock b).1 ≠ .error .returnOutsideFunction) ∧
    (∀ program : Block Nat, (ev.executeModule program).1 = .error .returnOutsideFunction ↔
      (ev.executeBlock program).1 = .ok true) ∧
    (∀ (bindings : NameMap Value) (rest : List Frame), ev.env = ⟨.scope bindings :: rest⟩ →
      (∀ (s : Stmt Nat) (err : EvalError), (ev.execute s).1 = .error err → ¬ err.Internal) ∧
      (∀ (b : Block Nat) (err : EvalError),
        (ev.executeBlock b).1 = .error err → ¬ err.Internal) ∧
      ∀ (program : Block Nat) (err : EvalError),
        (ev.executeModule program).1 = .error err → err.Internal →
          err = .returnOutsideFunction) := by
  have hblock : ∀ b : Block Nat, (ev.executeBlock b).1 ≠ .error .returnOutsideFunction :=
    fun b h => ne_returnOutsideFunction_of_admits (admits_of_executeBlock h) rfl
  refine ⟨fun e err h => (ordinary_of_evaluate h).not_internal,
    fun s h => ne_returnOutsideFunction_of_admits (admits_of_execute h) rfl, hblock,
    fun program => ?_, fun bindings rest henv => ?_⟩
  · rw [executeModule_fst]
    have hne := hblock program
    cases hresult : (ev.executeBlock program).1 with
    | ok posted => cases posted <;> simp
    | error e =>
      rw [hresult] at hne
      simpa using hne
  · have hscope : ev.env.OnScope := ⟨bindings, rest, by rw [henv]⟩
    refine ⟨fun s err h => not_internal_of_admits hscope (admits_of_execute h),
      fun b err h => not_internal_of_admits hscope (admits_of_executeBlock h),
      fun program err h hinternal => ?_⟩
    rw [executeModule_fst] at h
    split at h
    · exact (Except.error.inj h).symm
    · cases h
    · next e he =>
      obtain rfl := Except.error.inj h
      exact absurd hinternal (not_internal_of_admits hscope (admits_of_executeBlock he))

/-- A return between other statements of one line, in a branch of the program, is reported once it
is posted, and nothing else about such a program is internal. -/
theorem returnOutsideFunction_of_nested_return :
    let program : Block Nat :=
      [.cond (.bool true) [.simple [.pass, .ret (some (.int 1)), .pass]] none, .pass]
    let ev : Evaluator := { config := {} }
    (ev.executeBlock program).1 = .ok true ∧
      (ev.executeModule program).1 = .error .returnOutsideFunction ∧
      ∀ err, (ev.executeBlock program).1 = .error err → ¬ err.Internal := by
  intro program ev
  obtain ⟨-, -, -, hmodule, hscope⟩ := internal_errors_unreachable ev
  have hposted : (ev.executeBlock program).1 = .ok true := rfl
  exact ⟨hposted, (hmodule program).2 hposted, (hscope .empty [] rfl).2.1 program⟩

/-- A scope on top is needed: a pending return takes no binding. -/
example :
    (({ env := ⟨[.ret .none]⟩, config := {} } : Evaluator).execute
      (.assign "x" none (some (.int 1)))).1 = .error (.stackDiscipline .bindIntoReturn) := rfl

end Evaluator

end ScopeScript
