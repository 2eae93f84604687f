import Mathlib.Data.Nat.Find
import ScopeScript.Proofs.Evaluation.Errors

/-!
# The limit on calls in progress

The limit cuts a run off and does nothing else to it. A run that is not cut off goes the same way
under every higher limit, so for each expression there is one limit from which on its outcome no
longer changes, or none that suffices.

* `EvalM.CutOff`: a step that goes the way of another unless a limit cuts it off.
* `Evaluator.outcome`: the outcome of an expression as a function of the limit.

Main statements:

* `Expr.cutOff_eval` and `Stmt.cutOff_exec`: expressions and statements are cut off or go the same
  way under another limit, if calls do.
* `Evaluator.outcome_eq_of_le`: a higher limit changes no outcome that was not cut off.
-/

namespace ScopeScript

/-! ### Steps that a limit cuts off -/

namespace EvalM

variable {α β : Type} {limit : Nat}

/-- From every machine, the first step is cut off by the limit or goes the way of the second. -/
def CutOff (limit : Nat) (step step' : EvalM α) : Prop :=
  ∀ m, (step m).1 = .error (.callDepthExceeded limit) ∨ step' m = step m

/-- A step goes its own way. -/
theorem CutOff.refl (step : EvalM α) : CutOff limit step step :=
  fun _ => .inr rfl

/-- Two steps in a row, each of which is cut off or goes the way of another. -/
theorem CutOff.bind {step step' : EvalM α} {next next' : α → EvalM β}
    (hstep : CutOff limit step step') (hnext : ∀ a, CutOff limit (next a) (next' a)) :
    CutOff limit (step >>= next) (step' >>= next') := by
  intro m
  rw [bind_apply, bind_apply]
  rcases hstep m with hcut | heq
  · -- What follows a failure does not run, so the whole is cut off.
    have hout : step m = (.error (.callDepthExceeded limit), (step m).2) := Prod.ext hcut rfl
    rw [hout]
    exact .inl rfl
  · rw [heq]
    rcases step m with ⟨e | a, m'⟩
    · exact .inr rfl
    · exact hnext a m'

/-- A choice that does not depend on the limit. -/
theorem CutOff.ite {c : Prop} [Decidable c] {step step' other other' : EvalM α}
    (hstep : CutOff limit step step') (hother : CutOff limit other other') :
    CutOff limit (if c then step else other) (if c then step' else other') := by
  split
  · exact hstep
  · exact hother

end EvalM

/-- The first caller refuses all calls, or runs each until the limit cuts it off as the second
does. -/
def Caller.CutOff (limit : Nat) (caller caller' : Caller) : Prop :=
  ∀ run, caller = some run → ∃ run', caller' = some run' ∧
    ∀ d values, EvalM.CutOff limit (run d values) (run' d values)

section

variable {mode : Truthiness} {limit limit' : Nat} {caller caller' : Caller}

/-- Handing arguments to callers of which the first is cut off or goes the way of the second. -/
theorem Caller.CutOff.run {args args' : EvalM (List Value)}
    (hargs : EvalM.CutOff limit args args') (d : FuncDef Nat) :
    Caller.CutOff limit caller caller' → EvalM.CutOff limit
      (match caller with
        | none => throw (.callDepthExceeded limit)
        | some run => do
          let values ← args
          run d values)
      (match caller' with
        | none => throw (.callDepthExceeded limit')
        | some run => do
          let values ← args'
          run d values) := by
  intro hcaller
  cases caller with
  | none => exact fun m => .inl rfl
  | some run =>
    obtain ⟨run', rfl, hrun⟩ := hcaller run rfl
    exact hargs.bind fun values => hrun d values

mutual

/-- Expressions are cut off or go the same way under another limit, if calls do. -/
theorem Expr.cutOff_eval (hcaller : Caller.CutOff limit caller caller') :
    ∀ e : Expr, EvalM.CutOff limit (e.eval ⟨mode, limit⟩ caller) (e.eval ⟨mode, limit'⟩ caller')
  | .none | .bool _ | .int _ => by
    simp only [Expr.eval]
    exact .refl _
  | .name _ => by
    simp only [Expr.eval]
    exact .refl _
  | .unary op e => by
    cases op with
    | not =>
      simp only [Expr.eval]
      exact (Expr.cutOff_eval hcaller e).bind fun _ => .refl _
    | neg | pos | bitNot | star =>
      simp only [Expr.eval]
      exact .refl _
  | .binary op a b => by
    simp only [Expr.eval]
    cases op.meaning? mode with
    | none => exact .refl _
    | some meaning =>
      exact (Expr.cutOff_eval hcaller a).bind fun _ =>
        (Expr.cutOff_eval hcaller b).bind fun _ => .refl _
  | .ternary body condition orelse => by
    simp only [Expr.eval]
    exact (Expr.cutOff_eval hcaller condition).bind fun _ =>
      .ite (Expr.cutOff_eval hcaller body) (Expr.cutOff_eval hcaller orelse)
  | .call callee args => by
    simp only [Expr.eval]
    -- The number of arguments is checked before the limit, under every limit alike.
    exact (Expr.cutOff_eval hcaller callee).bind fun _ => (EvalM.CutOff.refl _).bind fun d =>
      .ite (Caller.CutOff.run (Expr.cutOff_evalAll hcaller args) d hcaller) (.refl _)

/-- Several expressions are cut off or go the same way under another limit, if calls do. -/
theorem Expr.cutOff_evalAll (hcaller : Caller.CutOff limit caller caller') :
    ∀ es : List Expr, EvalM.CutOff limit (Expr.evalAll ⟨mode, limit⟩ caller es)
      (Expr.evalAll ⟨mode, limit'⟩ caller' es)
  | [] => by
    simp only [Expr.evalAll]
    exact .refl _
  | e :: es => by
    simp only [Expr.evalAll]
    exact (Expr.cutOff_eval hcaller e).bind fun _ =>
      (Expr.cutOff_evalAll hcaller es).bind fun _ => .refl _

end

/-- Assertions are cut off or go the same way under another limit, if calls do. -/
theorem Expr.cutOff_assertAll (hcaller : Caller.CutOff limit caller caller') (es : List Expr) :
    EvalM.CutOff limit (Expr.assertAll ⟨mode, limit⟩ caller es)
      (Expr.assertAll ⟨mode, limit'⟩ caller' es) := by
  induction es with
  | nil => exact .refl _
  | cons e es ih =>
    simp only [Expr.assertAll]
    exact (Expr.cutOff_eval hcaller e).bind fun _ => .ite ih (.refl _)

mutual

/-- Statements are cut off or go the same way under another limit, if calls do. -/
theorem Stmt.cutOff_exec (hcaller : Caller.CutOff limit caller caller') :
    ∀ s : Stmt Nat,
      EvalM.CutOff limit (s.exec ⟨mode, limit⟩ caller) (s.exec ⟨mode, limit'⟩ caller')
  | .assign _ _ none | .pass | .funcDef _ _ _ _ | .ret none => by
    simp only [Stmt.exec]
    exact .refl _
  | .assign _ _ (some e) => by
    simp only [Stmt.exec]
    exact (Expr.cutOff_eval hcaller e).bind fun _ => .refl _
  | .assert es => by
    simp only [Stmt.exec]
    exact (Expr.cutOff_assertAll hcaller es).bind fun _ => .refl _
  | .cond condition body none => by
    simp only [Stmt.exec]
    exact (Expr.cutOff_eval hcaller condition).bind fun _ =>
      .ite (Stmt.cutOff_execAll hcaller body) (.refl _)
  | .cond condition body (some orelse) => by
    simp only [Stmt.exec]
    exact (Expr.cutOff_eval hcaller condition).bind fun _ =>
      .ite (Stmt.cutOff_execAll hcaller body) (Stmt.cutOff_execAll hcaller orelse)
  | .ret (some e) => by
    simp only [Stmt.exec]
    exact (Expr.cutOff_eval hcaller e).bind fun _ => .refl _
  | .simple stmts => by
    simp only [Stmt.exec]
    exact Stmt.cutOff_execAll hcaller stmts
  | .expr e => by
    simp only [Stmt.exec]
    exact (Expr.cutOff_eval hcaller e).bind fun _ => .refl _

/-- Several statements are cut off or go the same way under another limit, if calls do. -/
theorem Stmt.cutOff_execAll (hcaller : Caller.CutOff limit caller caller') :
    ∀ ss : List (Stmt Nat), EvalM.CutOff limit (Stmt.execAll ⟨mode, limit⟩ caller ss)
      (Stmt.execAll ⟨mode, limit'⟩ caller' ss)
  | [] => by
    simp only [Stmt.execAll]
    exact .refl _
  | s :: ss => by
    simp only [Stmt.execAll]
    exact (Stmt.cutOff_exec hcaller s).bind fun _ =>
      .ite (.refl _) (Stmt.cutOff_execAll hcaller ss)

end

/-! ### Calls -/

/-- Calls are cut off or go the same way under another limit, if the calls in their bodies do. -/
theorem FuncDef.cutOff_runCall (hread : caller.Reads) (hread' : caller'.Reads)
    (hcaller : Caller.CutOff limit caller caller') (d : FuncDef Nat) (values : List Value) :
    EvalM.CutOff limit (d.runCall ⟨mode, limit⟩ caller values)
      (d.runCall ⟨mode, limit'⟩ caller' values) := by
  intro m
  rw [runCall_eq hread, runCall_eq hread']
  have hbody : EvalM.CutOff limit (Stmt.execAll ⟨mode, limit⟩ caller d.body)
      (Stmt.execAll ⟨mode, limit'⟩ caller' d.body) := Stmt.cutOff_execAll hcaller d.body
  rcases hbody (d.entry values m) with hcut | heq
  · have hout : Stmt.execAll ⟨mode, limit⟩ caller d.body (d.entry values m) =
        (.error (.callDepthExceeded limit), _) := Prod.ext hcut rfl
    rw [hout]
    exact .inl rfl
  · rw [heq]
    exact .inr rfl

end

/-- Callers that allow more calls, under any limit, go the way of those that allow fewer until the
limit cuts these off. -/
theorem Caller.cutOff_upTo (mode : Truthiness) (limit limit' : Nat) {n n' : Nat} (h : n ≤ n') :
    Caller.CutOff limit (Caller.upTo ⟨mode, limit⟩ n) (Caller.upTo ⟨mode, limit'⟩ n') := by
  induction n generalizing n' with
  | zero =>
    intro run hrun
    cases hrun
  | succ n ih =>
    obtain ⟨k, rfl⟩ := Nat.exists_eq_add_of_lt h
    intro run hrun
    obtain rfl := Option.some.inj hrun
    refine ⟨_, rfl, fun d values => ?_⟩
    exact d.cutOff_runCall (Caller.reads_upTo _ n) (Caller.reads_upTo _ (n + k))
      (ih (Nat.le_add_right n k)) values

/-! ### Outcomes by limit -/

namespace Evaluator

/-- The outcome of an expression on a stack, with no call in progress, where `limit` calls may
be. -/
def outcome (mode : Truthiness) (env : Environment) (e : Expr) (limit : Nat) :
    Except EvalError Value :=
  (evaluate { env, callDepth := 0, config := ⟨mode, limit⟩ } e).1

/-- The outcome is that of the step that evaluates the expression, with all calls left. -/
theorem outcome_eq_eval (mode : Truthiness) (env : Environment) (e : Expr) (limit : Nat) :
    outcome mode env e limit =
      (e.eval ⟨mode, limit⟩ (Caller.atDepth ⟨mode, limit⟩ 0) ⟨env, 0⟩).1 := rfl

variable {mode : Truthiness} {env : Environment} {e : Expr}

/-- The only limit that an outcome can report is the one it was reached under. -/
theorem eq_of_outcome_eq_exceeded {limit n : Nat}
    (h : outcome mode env e limit = .error (.callDepthExceeded n)) : n = limit :=
  ordinary_of_evaluate h

/-- A higher limit changes no outcome that was not cut off. -/
theorem outcome_eq_of_le {limit limit' : Nat} (h : limit ≤ limit')
    (hcut : outcome mode env e limit ≠ .error (.callDepthExceeded limit)) :
    outcome mode env e limit' = outcome mode env e limit := by
  have hcaller : Caller.CutOff limit (Caller.atDepth ⟨mode, limit⟩ 0)
      (Caller.atDepth ⟨mode, limit'⟩ 0) := Caller.cutOff_upTo mode limit limit' h
  have hstep : EvalM.CutOff limit (e.eval ⟨mode, limit⟩ _) (e.eval ⟨mode, limit'⟩ _) :=
    Expr.cutOff_eval hcaller e
  rw [outcome_eq_eval] at hcut
  rw [outcome_eq_eval, outcome_eq_eval, (hstep ⟨env, 0⟩).resolve_left hcut]

/-- The limit is a pure threshold. Either an expression exceeds every limit, or there is a least
number of calls that suffices: below it the expression exceeds the limit, and from it on its outcome
is one and the same and is no exceeding of any limit. A higher limit changes no outcome but that the
limit was exceeded. -/
theorem evaluate_threshold (mode : Truthiness) (env : Environment) (e : Expr) :
    ((∀ limit, outcome mode env e limit = .error (.callDepthExceeded limit)) ∨
      ∃ (least : Nat) (result : Except EvalError Value),
        (∀ limit < least, outcome mode env e limit = .error (.callDepthExceeded limit)) ∧
        (∀ limit ≥ least, outcome mode env e limit = result) ∧
        ∀ n, result ≠ .error (.callDepthExceeded n)) ∧
    ∀ limit limit', limit ≤ limit' →
      outcome mode env e limit ≠ .error (.callDepthExceeded limit) →
      outcome mode env e limit' = outcome mode env e limit := by
  refine ⟨?_, fun limit limit' => outcome_eq_of_le⟩
  by_cases hall : ∀ limit, outcome mode env e limit = .error (.callDepthExceeded limit)
  · exact .inl hall
  · have hsome : ∃ limit, outcome mode env e limit ≠ .error (.callDepthExceeded limit) :=
      not_forall.1 hall
    -- The threshold is the least limit that is not exceeded.
    refine .inr ⟨Nat.find hsome, outcome mode env e (Nat.find hsome), fun limit hlt => ?_,
      fun limit hge => outcome_eq_of_le hge (Nat.find_spec hsome), fun n hn => ?_⟩
    · exact not_not.1 (Nat.find_min hsome hlt)
    · rw [eq_of_outcome_eq_exceeded hn] at hn
      exact Nat.find_spec hsome hn

/-- A function that calls another needs a limit of two. -/
example :
    let inner : FuncDef Nat := ⟨0, "g", [], [.ret (some (.int 1))]⟩
    let outer : FuncDef Nat := ⟨1, "f", [], [.ret (some (.call (.name "g") []))]⟩
    let env : Environment :=
      ⟨[.scope ((NameMap.empty.insert "g" (.function inner)).insert "f" (.function outer))]⟩
    outcome .strict env (.call (.name "f") []) 1 = .error (.callDepthExceeded 1) ∧
      outcome .strict env (.call (.name "f") []) 2 = .ok (.int 1) :=
  ⟨rfl, rfl⟩

end Evaluator

end ScopeScript
