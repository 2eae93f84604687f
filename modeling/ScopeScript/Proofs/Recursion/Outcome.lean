import ScopeScript.Proofs.Evaluation.Frames
import ScopeScript.Proofs.Recursion.Script

/-!
# How runs end

Every run ends, as the evaluation of its task does. Within the syntax in hand this is an induction
on the syntax, for the scripts hand on nothing but parts of it; the body of a called function is run
with one call less to spare, and the calls that are left are counted again by every run, so the
proof shows along the way that a run leaves as many calls in progress as it found.

* `Script.EndsAs`: a script that ends as a step does and leaves the number of calls in progress.
* `BodiesEnd`: what is assumed of the bodies of called functions for the runs of one allowance.

Main statement:

* `Task.ends_iff`: the outcomes of a run are that of evaluation.
-/

namespace ScopeScript

/-- The step leaves as many calls in progress as it found. -/
def EvalM.KeepsCalls {α : Type} (step : EvalM α) : Prop :=
  ∀ m, (step m).2.callDepth = m.callDepth

namespace EvalM

variable {α : Type}

/-- A step that only reads. -/
theorem Reads.keepsCalls {step : EvalM α} (h : Reads step) : KeepsCalls step := by
  intro m
  rw [h m]

/-- A change of the stack. -/
theorem keepsCalls_changes (f : Environment → Except EvalError Environment) :
    KeepsCalls (changes f) := by
  intro m
  rw [changes]
  split <;> rfl

/-- A push. -/
theorem keepsCalls_push (frame : Frame) : KeepsCalls (push frame) :=
  fun _ => rfl

/-- A pop. -/
theorem keepsCalls_pop : KeepsCalls pop := by
  intro m
  rw [pop]
  split <;> rfl

end EvalM

namespace Script

variable {α β : Type} {cfg : Config} {n : Nat}

/-- From every machine with `n` calls in progress, the script ends as the step does, and as many
calls are in progress then. -/
def EndsAs (cfg : Config) (n : Nat) (script : Script α) (step : EvalM α) : Prop :=
  ∀ m, m.callDepth = n → (script m).Ends cfg (step m) ∧ (step m).2.callDepth = n

/-- A known result. -/
theorem endsAs_pure (a : α) : EndsAs cfg n (pure a) (pure a) :=
  fun _ hm => ⟨.ended _, hm⟩

/-- A single step. -/
theorem endsAs_ofStep {step : EvalM α} (h : EvalM.KeepsCalls step) :
    EndsAs cfg n (ofStep step) step :=
  fun m hm => ⟨.moved _ (.ended _), (h m).trans hm⟩

/-- A failure. -/
theorem endsAs_throw (e : EvalError) : EndsAs cfg n (ofStep (throw e : EvalM α)) (throw e) :=
  endsAs_ofStep (EvalM.reads_throw e).keepsCalls

/-- A task that is handed on. -/
theorem endsAs_start {t : Task} {step : EvalM t.Result} (h : EndsAs cfg n (t.script cfg) step) :
    EndsAs cfg n (start t) step :=
  fun m hm => ⟨.started (h m hm).1 (.ended _), (h m hm).2⟩

/-- A script and what follows it. -/
theorem EndsAs.bind {script : Script α} {next : α → Script β} {step : EvalM α}
    {nextStep : α → EvalM β} (h : EndsAs cfg n script step)
    (hnext : ∀ a, EndsAs cfg n (next a) (nextStep a)) :
    EndsAs cfg n (script >>= next) (step >>= nextStep) := by
  intro m hm
  obtain ⟨hends, hcalls⟩ := h m hm
  rw [EvalM.bind_apply]
  rcases hout : step m with ⟨e | a, m'⟩ <;> rw [hout] at hends hcalls
  · exact ⟨hends.andThen (.ended _), hcalls⟩
  · -- The first script left `n` calls in progress, so the second starts with as many.
    obtain ⟨hends', hcalls'⟩ := hnext a m' hcalls
    exact ⟨hends.andThen hends', hcalls'⟩

/-- One choice on both sides. -/
theorem EndsAs.ite {c : Prop} [Decidable c] {script other : Script α} {step otherStep : EvalM α}
    (h : EndsAs cfg n script step) (hother : EndsAs cfg n other otherStep) :
    EndsAs cfg n (if c then script else other) (if c then step else otherStep) := by
  split
  · exact h
  · exact hother

/-- A script while one more call is in progress. -/
theorem EndsAs.inCall {script : Script α} {step : EvalM α} (h : EndsAs cfg (n + 1) script step) :
    EndsAs cfg n (inCall script) (EvalM.inCall step) := by
  rintro m rfl
  obtain ⟨hends, hcalls⟩ := h { m with callDepth := m.callDepth + 1 } rfl
  refine ⟨.moved _ (hends.andThen (.moved _ (.ended _))), ?_⟩
  show (step _).2.callDepth - 1 = m.callDepth
  rw [hcalls, Nat.add_sub_cancel]

/-- A script whose frames are cut off if it fails. -/
theorem EndsAs.cutBackOnFailure {script : Script α} {step : EvalM α} (height : Nat)
    (h : EndsAs cfg n script step) :
    EndsAs cfg n (cutBackOnFailure height script) (EvalM.cutBackOnFailure height step) := by
  intro m hm
  obtain ⟨hends, hcalls⟩ := h m hm
  rcases hout : step m with ⟨e | a, m'⟩ <;> rw [hout] at hends hcalls
  · rw [EvalM.cutBackOnFailure_of_error hout]
    exact ⟨hends.andThen (.moved _ (.ended _)), hcalls⟩
  · rw [EvalM.cutBackOnFailure_of_ok hout]
    exact ⟨hends.andThen (.ended _), hcalls⟩

/-- What a call takes off the stack. -/
theorem endsAs_collect : EndsAs cfg n collect (do
    match ← EvalM.pop with
    | .scope _ => throw (.stackDiscipline .noReturn)
    | .ret value =>
      match ← EvalM.pop with
      | .scope _ => return value
      | .ret _ => throw (.stackDiscipline .secondReturn)) := by
  refine (endsAs_ofStep EvalM.keepsCalls_pop).bind fun frame => ?_
  cases frame with
  | scope => exact endsAs_throw _
  | ret value =>
    refine (endsAs_ofStep EvalM.keepsCalls_pop).bind fun frame => ?_
    cases frame with
    | scope => exact endsAs_pure value
    | ret => exact endsAs_throw _

end Script

/-! ### The syntax in hand -/

/-- Where one more call may be in progress than `n`, the bodies of called functions end as their
evaluation does. -/
def BodiesEnd (cfg : Config) (n : Nat) : Prop :=
  n < cfg.maxCallDepth → ∀ d : FuncDef Nat,
    Script.EndsAs cfg (n + 1) d.script (d.runBody cfg (Caller.atDepth cfg (n + 1)))

section

variable {cfg : Config} {n : Nat}

/-- A call ends as its evaluation does. -/
theorem BodiesEnd.call (hbodies : BodiesEnd cfg n) (hn : n < cfg.maxCallDepth) (d : FuncDef Nat)
    (values : List Value) :
    Script.EndsAs cfg n (Script.call d values)
      (d.runCall cfg (Caller.atDepth cfg (n + 1)) values) := by
  intro m hm
  have hbody : Script.EndsAs cfg (n + 1) (Script.start (.runBody d)) _ :=
    Script.endsAs_start (t := .runBody d) (hbodies hn d)
  exact (((Script.endsAs_ofStep (EvalM.keepsCalls_push _)).bind fun _ =>
    hbody.inCall).cutBackOnFailure m.env.depth) m hm

/-- Whether one more call may be in progress is the same asked of the machine and of the allowance
that a run starts with. -/
theorem BodiesEnd.ifAllowed (hbodies : BodiesEnd cfg n) {args : Script (List Value)}
    {argsStep : EvalM (List Value)} (hargs : Script.EndsAs cfg n args argsStep) (d : FuncDef Nat) :
    Script.EndsAs cfg n
      (Script.ifAllowed cfg do
        let values ← args
        Script.call d values)
      (match Caller.atDepth cfg n with
        | none => throw (.callDepthExceeded cfg.maxCallDepth)
        | some run => do
          let values ← argsStep
          run d values) := by
  intro m hm
  unfold Script.ifAllowed
  -- The script asks the machine and evaluation its caller; both know of `n` calls in progress.
  rw [hm]
  split
  · next hle =>
    rw [Caller.atDepth_of_le hle]
    exact Script.endsAs_throw _ m hm
  · next hlt =>
    have hn : n < cfg.maxCallDepth := Nat.lt_of_not_le hlt
    rw [Caller.atDepth_of_lt hn]
    exact hargs.bind (fun values => hbodies.call hn d values) m hm

mutual

/-- Expressions end as their evaluation does if the bodies of called functions do. -/
theorem Expr.endsAs_script (hbodies : BodiesEnd cfg n) :
    ∀ e : Expr, Script.EndsAs cfg n (e.script cfg) (e.eval cfg (Caller.atDepth cfg n))
  | .none | .bool _ | .int _ => by
    simp only [Expr.script, Expr.eval]
    exact Script.endsAs_pure _
  | .name _ => by
    simp only [Expr.script, Expr.eval]
    exact Script.endsAs_ofStep (EvalM.reads_asks _).keepsCalls
  | .unary op e => by
    cases op with
    | not =>
      simp only [Expr.script, Expr.eval]
      exact (Script.endsAs_start (Expr.endsAs_script hbodies e)).bind fun _ => Script.endsAs_pure _
    | neg | pos | bitNot | star =>
      simp only [Expr.script, Expr.eval]
      exact Script.endsAs_throw _
  | .binary op a b => by
    simp only [Expr.script, Expr.eval]
    cases op.meaning? cfg.truthiness with
    | none => exact Script.endsAs_throw _
    | some meaning =>
      exact (Script.endsAs_start (Expr.endsAs_script hbodies a)).bind fun _ =>
        (Script.endsAs_start (Expr.endsAs_script hbodies b)).bind fun _ =>
          Script.endsAs_ofStep (EvalM.reads_ofExcept _).keepsCalls
  | .ternary body condition orelse => by
    simp only [Expr.script, Expr.eval]
    exact (Script.endsAs_start (Expr.endsAs_script hbodies condition)).bind fun _ =>
      (Script.endsAs_start (Expr.endsAs_script hbodies body)).ite
        (Script.endsAs_start (Expr.endsAs_script hbodies orelse))
  | .call callee args => by
    simp only [Expr.script, Expr.eval]
    exact (Script.endsAs_start (Expr.endsAs_script hbodies callee)).bind fun _ =>
      (Script.endsAs_ofStep (EvalM.reads_ofExcept _).keepsCalls).bind fun d =>
        (hbodies.ifAllowed (Expr.endsAs_evalEach hbodies args) d).ite (Script.endsAs_throw _)

/-- Several expressions end as their evaluation does if the bodies of called functions do. -/
theorem Expr.endsAs_evalEach (hbodies : BodiesEnd cfg n) :
    ∀ es : List Expr, Script.EndsAs cfg n (Script.evalEach es)
      (Expr.evalAll cfg (Caller.atDepth cfg n) es)
  | [] => by
    simp only [Script.evalEach, Expr.evalAll]
    exact Script.endsAs_pure _
  | e :: es => by
    simp only [Script.evalEach, Expr.evalAll]
    exact (Script.endsAs_start (Expr.endsAs_script hbodies e)).bind fun _ =>
      (Expr.endsAs_evalEach hbodies es).bind fun _ => Script.endsAs_pure _

end

/-- Several assertions end as their evaluation does if the bodies of called functions do. -/
theorem Expr.endsAs_assertEach (hbodies : BodiesEnd cfg n) (es : List Expr) :
    Script.EndsAs cfg n (Script.assertEach cfg es)
      (Expr.assertAll cfg (Caller.atDepth cfg n) es) := by
  induction es with
  | nil => exact Script.endsAs_pure _
  | cons e es ih =>
    exact (Script.endsAs_start (Expr.endsAs_script hbodies e)).bind fun _ =>
      ih.ite (Script.endsAs_throw _)

mutual

/-- Statements end as running them does if the bodies of called functions do. -/
theorem Stmt.endsAs_script (hbodies : BodiesEnd cfg n) :
    ∀ s : Stmt Nat, Script.EndsAs cfg n (s.script cfg) (s.exec cfg (Caller.atDepth cfg n))
  | .assign _ _ none | .pass => by
    simp only [Stmt.script, Stmt.exec]
    exact Script.endsAs_pure _
  | .assign _ _ (some e) => by
    simp only [Stmt.script, Stmt.exec]
    exact (Script.endsAs_start (Expr.endsAs_script hbodies e)).bind fun _ =>
      (Script.endsAs_ofStep (EvalM.keepsCalls_changes _)).bind fun _ => Script.endsAs_pure _
  | .assert es => by
    simp only [Stmt.script, Stmt.exec]
    exact (Expr.endsAs_assertEach hbodies es).bind fun _ => Script.endsAs_pure _
  | .cond condition body none => by
    simp only [Stmt.script, Stmt.exec]
    exact (Script.endsAs_start (Expr.endsAs_script hbodies condition)).bind fun _ =>
      (Script.endsAs_start (Stmt.endsAs_execEach hbodies body)).ite (Script.endsAs_pure _)
  | .cond condition body (some orelse) => by
    simp only [Stmt.script, Stmt.exec]
    exact (Script.endsAs_start (Expr.endsAs_script hbodies condition)).bind fun _ =>
      (Script.endsAs_start (Stmt.endsAs_execEach hbodies body)).ite
        (Script.endsAs_start (Stmt.endsAs_execEach hbodies orelse))
  | .ret none => by
    simp only [Stmt.script, Stmt.exec]
    exact (Script.endsAs_pure _).bind fun _ =>
      (Script.endsAs_ofStep (EvalM.keepsCalls_push _)).bind fun _ => Script.endsAs_pure _
  | .ret (some e) => by
    simp only [Stmt.script, Stmt.exec]
    exact (Script.endsAs_start (Expr.endsAs_script hbodies e)).bind fun _ =>
      (Script.endsAs_ofStep (EvalM.keepsCalls_push _)).bind fun _ => Script.endsAs_pure _
  | .funcDef _ _ _ _ => by
    simp only [Stmt.script, Stmt.exec]
    exact (Script.endsAs_ofStep (EvalM.keepsCalls_changes _)).bind fun _ => Script.endsAs_pure _
  | .simple stmts => by
    simp only [Stmt.script, Stmt.exec]
    exact Script.endsAs_start (Stmt.endsAs_execEach hbodies stmts)
  | .expr e => by
    simp only [Stmt.script, Stmt.exec]
    exact (Script.endsAs_start (Expr.endsAs_script hbodies e)).bind fun _ => Script.endsAs_pure _

/-- Several statements end as running them does if the bodies of called functions do. -/
theorem Stmt.endsAs_execEach (hbodies : BodiesEnd cfg n) :
    ∀ ss : List (Stmt Nat), Script.EndsAs cfg n (Script.execEach ss)
      (Stmt.execAll cfg (Caller.atDepth cfg n) ss)
  | [] => by
    simp only [Script.execEach, Stmt.execAll]
    exact Script.endsAs_pure _
  | s :: ss => by
    simp only [Script.execEach, Stmt.execAll]
    exact (Script.endsAs_start (Stmt.endsAs_script hbodies s)).bind fun _ =>
      (Script.endsAs_pure _).ite (Stmt.endsAs_execEach hbodies ss)

end

/-! ### Bodies and programs -/

/-- A body ends as its evaluation does if the bodies that it calls do. -/
theorem FuncDef.endsAs_script (hbodies : BodiesEnd cfg n) (d : FuncDef Nat) :
    Script.EndsAs cfg n d.script (d.runBody cfg (Caller.atDepth cfg n)) := by
  rw [FuncDef.script, FuncDef.runBody]
  refine (Script.endsAs_start (Stmt.endsAs_execEach hbodies d.body)).bind fun returned => ?_
  -- What follows is the same whether or not the body had to be ended with a return of `None`.
  refine Script.EndsAs.ite ((Script.endsAs_ofStep (EvalM.keepsCalls_push _)).bind fun _ => ?_) ?_
  · exact Script.endsAs_collect
  · exact Script.endsAs_collect

/-- A program ends as running it does if the bodies of called functions do. -/
theorem Block.endsAs_program (hbodies : BodiesEnd cfg n) (b : Block Nat) :
    Script.EndsAs cfg n ((Task.program b).script cfg)
      (Evaluator.moduleStep b cfg (Caller.atDepth cfg n)) :=
  (Script.endsAs_start (Stmt.endsAs_execEach hbodies b)).bind fun _ =>
    ((Script.endsAs_ofStep EvalM.keepsCalls_pop).bind fun _ => Script.endsAs_throw _).ite
      (Script.endsAs_pure ())

end

/-- However many calls are in progress, the bodies of called functions end: each is run with one
call less to spare. -/
theorem bodiesEnd (cfg : Config) (n : Nat) : BodiesEnd cfg n :=
  fun _ d => d.endsAs_script (bodiesEnd cfg (n + 1))
termination_by cfg.maxCallDepth - n
decreasing_by omega

namespace Task

variable {cfg : Config}

/-- The script of a task ends as evaluation does, whatever the number of calls in progress. -/
theorem endsAs_step (cfg : Config) (n : Nat) (t : Task) :
    Script.EndsAs cfg n (t.script cfg) (t.step cfg (Caller.atDepth cfg n)) := by
  have hbodies : BodiesEnd cfg n := bodiesEnd cfg n
  cases t with
  | eval e => exact Expr.endsAs_script hbodies e
  | runBody d => exact d.endsAs_script hbodies
  | exec s => exact Stmt.endsAs_script hbodies s
  | execAll ss => exact Stmt.endsAs_execEach hbodies ss
  | program b => exact Block.endsAs_program hbodies b

/-- A run has one outcome, that of evaluation. -/
theorem ends_iff {t : Task} {m : Machine} {outcome : Outcome t.Result} :
    (t.script cfg m).Ends cfg outcome ↔ outcome = t.perform cfg m := by
  have hends : (t.script cfg m).Ends cfg (t.perform cfg m) := (endsAs_step cfg _ t m rfl).1
  constructor
  · intro h
    exact h.unique hends
  · rintro rfl
    exact hends

/-- A run leaves as many calls in progress as it found. -/
theorem callDepth_perform (t : Task) (m : Machine) :
    (t.perform cfg m).2.callDepth = m.callDepth :=
  (endsAs_step cfg _ t m rfl).2

end Task

end ScopeScript
