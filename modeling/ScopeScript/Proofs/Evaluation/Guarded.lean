import ScopeScript.Proofs.Evaluation.Frames
import ScopeScript.Proofs.Evaluation.Stored

/-!
# Guarded tests

The truthiness mode decides which values other than truth values count as true. Where the truth of
nothing is asked but of expressions that give truth values by their form, the mode makes no
difference: two runs in different modes take the same branches and store the same values. The
functions that a run finds on the stack may bring bodies that are not in sight, so the stack has to
be guarded too, and stays so.

* `Expr.isTest`: the expressions that give truth values by their form.
* `Expr.isGuarded`, `Stmt.isGuarded`: syntax in which the truth of nothing but tests is asked.
* `Environment.Guarded`: the functions on the stack have guarded bodies.
* `EvalM.SameWay`: two steps that go the same way from every guarded stack and leave it guarded.

Main statements:

* `Expr.sameWay_eval` and `Stmt.sameWay_exec`: guarded expressions and statements go the same way in
  two modes, if calls do.
* `Evaluator.truthiness_unobservable`: guarded syntax on a guarded stack has one outcome in both
  modes.
-/

namespace ScopeScript

/-! ### Guarded syntax -/

/-- Whether the operator asks for the truth of its operands. -/
def BinaryOp.isConnective : BinaryOp → Bool
  | or | and => true
  | _ => false

/-- Whether an expression gives a truth value by its form: `True` and `False`, a negation, a
connective or a comparison. -/
def Expr.isTest : Expr → Bool
  | .bool _ => true
  | .unary .not _ => true
  | .binary op _ _ => op.isConnective || op.isComparison
  | _ => false

mutual

/-- Whether the truth of nothing but tests is asked in an expression. -/
def Expr.isGuarded : Expr → Bool
  | .none | .bool _ | .int _ | .name _ => true
  | .unary .not e => e.isTest && Expr.isGuarded e
  | .unary _ e => Expr.isGuarded e
  | .binary op a b =>
    (!op.isConnective || (a.isTest && b.isTest)) && (Expr.isGuarded a && Expr.isGuarded b)
  | .ternary body condition orelse =>
    (condition.isTest && Expr.isGuarded condition) && (Expr.isGuarded body && Expr.isGuarded orelse)
  | .call callee args => Expr.isGuarded callee && Expr.allGuarded args

/-- Whether the truth of nothing but tests is asked in several expressions. -/
def Expr.allGuarded : List Expr → Bool
  | [] => true
  | e :: es => Expr.isGuarded e && Expr.allGuarded es

end

/-- Whether an expression is a test and itself asks for the truth of nothing but tests. -/
def Expr.isGuard (e : Expr) : Bool :=
  e.isTest && e.isGuarded

/-- A guard is a guarded test. -/
theorem Expr.isGuard_iff {e : Expr} : e.isGuard = true ↔ e.isTest = true ∧ e.isGuarded = true :=
  Bool.and_eq_true_iff

mutual

/-- Whether the truth of nothing but guarded tests is asked in a statement, the bodies of its
definitions included. Type hints are never evaluated and may be anything. -/
def Stmt.isGuarded {δ : Type} : Stmt δ → Bool
  | .assign _ _ none => true
  | .assign _ _ (some e) => e.isGuarded
  | .assert es => es.all Expr.isGuard
  | .cond condition body none => condition.isGuard && Stmt.allGuarded body
  | .cond condition body (some orelse) =>
    condition.isGuard && (Stmt.allGuarded body && Stmt.allGuarded orelse)
  | .ret none => true
  | .ret (some e) => e.isGuarded
  | .funcDef _ _ _ body => Stmt.allGuarded body
  | .simple stmts => Stmt.allGuarded stmts
  | .expr e => e.isGuarded
  | .pass => true

/-- Whether the truth of nothing but guarded tests is asked in several statements. -/
def Stmt.allGuarded {δ : Type} : List (Stmt δ) → Bool
  | [] => true
  | s :: ss => Stmt.isGuarded s && Stmt.allGuarded ss

end

namespace BinaryOp

variable {op : BinaryOp}

/-- A connective joins the truth of its operands, in every mode by the same test. -/
theorem exists_connective (h : op.isConnective = true) :
    ∃ test, ∀ mode, op.meaning? mode = some (Value.connective mode test) := by
  cases op with
  | or => exact ⟨(· || ·), fun _ => rfl⟩
  | and => exact ⟨(· && ·), fun _ => rfl⟩
  | _ => cases h

/-- An operator that is no connective means the same in every mode. -/
theorem meaning?_eq_of_not_connective (h : op.isConnective = false) (mode mode' : Truthiness) :
    op.meaning? mode = op.meaning? mode' := by
  cases op with
  | or | and => cases h
  | _ => rfl

end BinaryOp

/-! ### Guarded stacks -/

/-- The value is no function, or one with a guarded body. -/
def Value.Guarded : Value → Prop
  | function d => Stmt.allGuarded d.body = true
  | _ => True

/-- What is no function is guarded. -/
theorem Value.guarded_of_kind {v : Value} (h : v.kind ≠ .function) : v.Guarded := by
  cases v with
  | function d => exact absurd rfl h
  | _ => trivial

/-- The function that a guarded value is has a guarded body. -/
theorem Value.guarded_of_asFunction {v : Value} (hv : v.Guarded) {d : FuncDef Nat}
    (h : v.asFunction = .ok d) : Stmt.allGuarded d.body = true := by
  cases v with
  | function d' =>
    obtain rfl := Except.ok.inj h
    exact hv
  | _ => cases h

/-- What is made of a truth value. -/
theorem Value.eq_bool_of_map_bool {r : Except EvalError Bool} {v : Value}
    (h : r.map bool = .ok v) : ∃ b, v = bool b := by
  cases r with
  | error e => cases h
  | ok b => exact ⟨b, (Except.ok.inj h).symm⟩

/-- The values in a frame are guarded. -/
def Frame.Guarded : Frame → Prop
  | scope b => b.All Value.Guarded
  | ret v => v.Guarded

/-- A guarded frame holds guarded values. -/
theorem Frame.guarded_iff {frame : Frame} : frame.Guarded ↔ frame.All Value.Guarded := by
  cases frame <;> rfl

namespace Environment

/-- The values on the stack are guarded. -/
def Guarded (env : Environment) : Prop :=
  ∀ frame ∈ env.frames, frame.Guarded

/-- A guarded stack holds guarded values. -/
theorem guarded_iff {env : Environment} : env.Guarded ↔ env.All Value.Guarded :=
  forall₂_congr fun _ _ => Frame.guarded_iff

namespace Guarded

variable {env env' : Environment} {name : String} {v : Value}

/-- One more frame with guarded values. -/
theorem push (h : env.Guarded) {frame : Frame} (hframe : frame.Guarded) :
    (env.push frame).Guarded :=
  guarded_iff.2 ((guarded_iff.1 h).push (Frame.guarded_iff.1 hframe))

/-- A name on a guarded stack means a guarded value. -/
theorem of_resolve (h : env.Guarded) (hname : env.resolve name = .ok v) : v.Guarded :=
  (guarded_iff.1 h).of_resolve hname

/-- A guarded value bound on top. -/
theorem define (h : env.Guarded) (hv : v.Guarded) (hdefine : env.define name v = .ok env') :
    env'.Guarded :=
  guarded_iff.2 ((guarded_iff.1 h).define hv hdefine)

/-- Frames taken off the top. -/
theorem of_pop (h : env.Guarded) {frame : Frame} (hpop : env.pop = .ok (frame, env')) :
    env'.Guarded :=
  guarded_iff.2 ((guarded_iff.1 h).of_pop hpop).2

end Guarded

end Environment

/-! ### Steps that go the same way -/

namespace EvalM

variable {α β : Type} {P : α → Prop} {Q : β → Prop}

/-- From every guarded stack, both steps have the same outcome and leave the same guarded stack, and
a result has the property. -/
def SameWay (P : α → Prop) (step step' : EvalM α) : Prop :=
  ∀ m, m.env.Guarded →
    step' m = step m ∧ (step m).2.env.Guarded ∧ ∀ a, (step m).1 = .ok a → P a

/-- A known result with the property. -/
theorem SameWay.pure {a : α} (h : P a) : SameWay P (pure a) (pure a) := by
  intro m hm
  refine ⟨rfl, hm, fun a' ha => ?_⟩
  obtain rfl := Except.ok.inj ha
  exact h

/-- A failure. -/
theorem SameWay.throw (e : EvalError) : SameWay P (throw e) (throw e) := by
  intro m hm
  refine ⟨rfl, hm, fun a ha => ?_⟩
  cases ha

/-- An outcome that is already known. -/
theorem SameWay.ofExcept {result : Except EvalError α} (h : ∀ a, result = .ok a → P a) :
    SameWay P (ofExcept result) (ofExcept result) :=
  fun _ hm => ⟨rfl, hm, h⟩

/-- A look at the stack. -/
theorem SameWay.asks {f : Environment → Except EvalError α}
    (h : ∀ env a, env.Guarded → f env = .ok a → P a) : SameWay P (asks f) (asks f) :=
  fun m hm => ⟨rfl, hm, fun a ha => h m.env a hm ha⟩

/-- Two steps in a row. -/
theorem SameWay.bind {step step' : EvalM α} {next next' : α → EvalM β}
    (hstep : SameWay P step step') (hnext : ∀ a, P a → SameWay Q (next a) (next' a)) :
    SameWay Q (step >>= next) (step' >>= next') := by
  intro m hm
  obtain ⟨heq, henv, hresult⟩ := hstep m hm
  rw [bind_apply, bind_apply, heq]
  generalize step m = outcome at henv hresult ⊢
  rcases outcome with ⟨e | a, m'⟩
  · refine ⟨rfl, henv, fun b hb => ?_⟩
    cases hb
  · exact hnext a (hresult a rfl) m' henv

/-- A choice that does not depend on the mode. -/
theorem SameWay.ite {c : Prop} [Decidable c] {step step' other other' : EvalM α}
    (hstep : SameWay P step step') (hother : SameWay P other other') :
    SameWay P (if c then step else other) (if c then step' else other') := by
  split
  · exact hstep
  · exact hother

/-- A choice by the truth of what gives truth values. -/
theorem SameWay.branch {mode mode' : Truthiness} {test test' : EvalM Value}
    {step step' other other' : EvalM α}
    (htest : SameWay (fun v => ∃ b, v = .bool b) test test')
    (hstep : SameWay P step step') (hother : SameWay P other other') :
    SameWay P
      (do
        let v ← test
        if v.truthy mode then step else other)
      (do
        let v ← test'
        if v.truthy mode' then step' else other') := by
  refine htest.bind ?_
  rintro _ ⟨b, rfl⟩
  -- The truth of a truth value is itself, in every mode.
  simp only [Value.truthy_bool]
  exact .ite hstep hother

/-- Binding a name to a guarded value. -/
theorem SameWay.define (name : String) {v : Value} (hv : v.Guarded) :
    SameWay (fun _ => True)
      (do
        changes (·.define name v)
        return false)
      (do
        changes (·.define name v)
        return false) := by
  intro m hm
  refine ⟨rfl, ?_, fun _ _ => trivial⟩
  rw [bind_apply, changes]
  cases h : m.env.define name v with
  | ok env => exact hm.define hv h
  | error e => exact hm

/-- Posting a return of a guarded value. -/
theorem SameWay.post {v : Value} (hv : v.Guarded) :
    SameWay (fun _ => True)
      (do
        push (.ret v)
        return true)
      (do
        push (.ret v)
        return true) :=
  fun _ hm => ⟨rfl, hm.push hv, fun _ _ => trivial⟩

/-- Taking a frame off a guarded stack. -/
theorem SameWay.pop : SameWay (fun _ => True) pop pop := by
  intro m hm
  refine ⟨rfl, ?_, fun _ _ => trivial⟩
  rw [EvalM.pop]
  cases h : m.env.pop with
  | ok popped => exact hm.of_pop h
  | error e => exact hm

/-- Every result of the step has the property. -/
def Gives (P : α → Prop) (step : EvalM α) : Prop :=
  ∀ m a, (step m).1 = .ok a → P a

/-- A known result with the property. -/
theorem gives_pure {a : α} (h : P a) : Gives P (pure a) := by
  intro m a' ha
  obtain rfl := Except.ok.inj ha
  exact h

/-- The result of two steps in a row is that of the second. -/
theorem gives_bind {step : EvalM α} {next : α → EvalM β} (hnext : ∀ a, Gives Q (next a)) :
    Gives Q (step >>= next) := by
  intro m b hb
  rw [bind_apply] at hb
  generalize step m = outcome at hb
  rcases outcome with ⟨e | a, m'⟩
  · cases hb
  · exact hnext a m' b hb

/-- Steps that go the same way, with what else is known of the results of the first. -/
theorem SameWay.of_gives {Q : α → Prop} {step step' : EvalM α} (h : SameWay P step step')
    (hgives : Gives Q step) : SameWay Q step step' :=
  fun m hm => ⟨(h m hm).1, (h m hm).2.1, hgives m⟩

end EvalM

/-! ### Expressions -/

/-- A test gives a truth value, whatever its operands are. -/
theorem Expr.gives_bool {e : Expr} (h : e.isTest = true) (cfg : Config) (caller : Caller) :
    EvalM.Gives (fun v => ∃ b, v = .bool b) (e.eval cfg caller) := by
  cases e with
  | bool b =>
    rw [Expr.eval]
    exact EvalM.gives_pure ⟨b, rfl⟩
  | unary op e =>
    cases op with
    | not =>
      rw [Expr.eval]
      exact EvalM.gives_bind fun _ => EvalM.gives_pure ⟨_, rfl⟩
    | _ => cases h
  | binary op a b =>
    rcases Bool.or_eq_true _ _ ▸ h with hconnective | hcomparison
    · obtain ⟨test, htest⟩ := BinaryOp.exists_connective hconnective
      rw [Expr.eval, htest]
      refine EvalM.gives_bind fun x => EvalM.gives_bind fun y m v hv => ?_
      exact ⟨_, (Except.ok.inj hv).symm⟩
    · rw [Expr.eval, BinaryOp.meaning?_of_isComparison hcomparison]
      refine EvalM.gives_bind fun x => EvalM.gives_bind fun y m v hv => ?_
      exact Value.eq_bool_of_map_bool hv
  | _ => cases h

/-- The callers refuse all calls, or run every call of a guarded function with guarded values the
same way. -/
inductive Caller.SameWay : Caller → Caller → Prop where
  /-- As many calls as allowed are in progress. -/
  | refused : SameWay none none
  /-- Calls are run. -/
  | running {run run' : FuncDef Nat → List Value → EvalM Value}
    (h : ∀ d values, Stmt.allGuarded d.body = true → (∀ v ∈ values, v.Guarded) →
      EvalM.SameWay Value.Guarded (run d values) (run' d values)) : SameWay (some run) (some run')

section

variable {mode mode' : Truthiness} {limit : Nat} {caller caller' : Caller}

/-- Handing guarded arguments to callers that go the same way. -/
theorem Caller.SameWay.run {e : EvalError} {d : FuncDef Nat}
    (hd : Stmt.allGuarded d.body = true) {args args' : EvalM (List Value)} :
    Caller.SameWay caller caller' →
      EvalM.SameWay (fun vs => ∀ v ∈ vs, v.Guarded) args args' → EvalM.SameWay Value.Guarded
      (match caller with
        | none => throw e
        | some run => do
          let values ← args
          run d values)
      (match caller' with
        | none => throw e
        | some run => do
          let values ← args'
          run d values) := by
  intro hcaller hargs
  cases hcaller with
  | refused => exact .throw e
  | running hrun => exact hargs.bind fun values hvalues => hrun d values hd hvalues

mutual

/-- Guarded expressions go the same way in two modes, if calls do. -/
theorem Expr.sameWay_eval (hcaller : caller.SameWay caller') :
    ∀ e : Expr, e.isGuarded = true → EvalM.SameWay Value.Guarded (e.eval ⟨mode, limit⟩ caller)
      (e.eval ⟨mode', limit⟩ caller')
  | .none, _ | .bool _, _ | .int _, _ => by
    simp only [Expr.eval]
    exact .pure trivial
  | .name _, _ => by
    simp only [Expr.eval]
    exact .asks fun _ _ henv hv => henv.of_resolve hv
  | .unary op e, h => by
    cases op with
    | not =>
      rw [Expr.isGuarded] at h
      simp only [Expr.eval]
      refine (Expr.sameWay_guard hcaller e h).bind ?_
      rintro _ ⟨b, rfl⟩
      exact .pure trivial
    | neg | pos | bitNot | star =>
      simp only [Expr.eval]
      exact .throw _
  | .binary op a b, h => by
    simp only [Expr.isGuarded, Bool.and_eq_true, Bool.or_eq_true, Bool.not_eq_true'] at h
    obtain ⟨htests, ha, hb⟩ := h
    simp only [Expr.eval]
    -- Only a connective asks for the truth of its operands; the other operators know no mode.
    cases hop : op.isConnective with
    | true =>
      obtain ⟨test, htest⟩ := BinaryOp.exists_connective hop
      obtain ⟨hatest, hbtest⟩ := htests.resolve_left (by simp [hop])
      rw [htest, htest]
      refine (Expr.sameWay_guard hcaller a (Expr.isGuard_iff.2 ⟨hatest, ha⟩)).bind ?_
      rintro _ ⟨x, rfl⟩
      refine (Expr.sameWay_guard hcaller b (Expr.isGuard_iff.2 ⟨hbtest, hb⟩)).bind ?_
      rintro _ ⟨y, rfl⟩
      exact .pure trivial
    | false =>
      rw [BinaryOp.meaning?_eq_of_not_connective hop mode' mode]
      cases hmeaning : op.meaning? mode with
      | none => exact .throw _
      | some meaning =>
        refine (Expr.sameWay_eval hcaller a ha).bind fun x _ => ?_
        refine (Expr.sameWay_eval hcaller b hb).bind fun y _ => .ofExcept fun v hv => ?_
        exact Value.guarded_of_kind (BinaryOp.kind_ne_function_of_meaning? hmeaning hv)
  | .ternary body condition orelse, h => by
    simp only [Expr.isGuarded, Bool.and_eq_true] at h
    obtain ⟨hcondition, hbody, horelse⟩ := h
    simp only [Expr.eval]
    exact (Expr.sameWay_guard hcaller condition (Expr.isGuard_iff.2 hcondition)).branch
      (Expr.sameWay_eval hcaller body hbody) (Expr.sameWay_eval hcaller orelse horelse)
  | .call callee args, h => by
    simp only [Expr.isGuarded, Bool.and_eq_true] at h
    simp only [Expr.eval]
    refine (Expr.sameWay_eval hcaller callee h.1).bind fun v hv => ?_
    have hfunction : EvalM.SameWay (fun d : FuncDef Nat => Stmt.allGuarded d.body = true)
        (EvalM.ofExcept v.asFunction) (EvalM.ofExcept v.asFunction) :=
      .ofExcept fun d hd => Value.guarded_of_asFunction hv hd
    exact hfunction.bind fun d hd =>
      .ite (hcaller.run hd (Expr.sameWay_evalAll hcaller args h.2)) (.throw _)

/-- A guard goes the same way in two modes and gives a truth value. -/
theorem Expr.sameWay_guard (hcaller : caller.SameWay caller') (e : Expr) (h : e.isGuard = true) :
    EvalM.SameWay (fun v => ∃ b, v = .bool b) (e.eval ⟨mode, limit⟩ caller)
      (e.eval ⟨mode', limit⟩ caller') := by
  obtain ⟨htest, hguarded⟩ := Expr.isGuard_iff.1 h
  exact (Expr.sameWay_eval hcaller e hguarded).of_gives (Expr.gives_bool htest _ _)

/-- Several guarded expressions go the same way in two modes, if calls do. -/
theorem Expr.sameWay_evalAll (hcaller : caller.SameWay caller') :
    ∀ es : List Expr, Expr.allGuarded es = true →
      EvalM.SameWay (fun vs => ∀ v ∈ vs, v.Guarded) (Expr.evalAll ⟨mode, limit⟩ caller es)
        (Expr.evalAll ⟨mode', limit⟩ caller' es)
  | [], _ => by
    simp only [Expr.evalAll]
    exact .pure (by simp)
  | e :: es, h => by
    simp only [Expr.allGuarded, Bool.and_eq_true] at h
    simp only [Expr.evalAll]
    exact (Expr.sameWay_eval hcaller e h.1).bind fun v hv =>
      (Expr.sameWay_evalAll hcaller es h.2).bind fun vs hvs =>
        .pure (List.forall_mem_cons.2 ⟨hv, hvs⟩)

end

/-- Guarded assertions go the same way in two modes, if calls do. -/
theorem Expr.sameWay_assertAll (hcaller : caller.SameWay caller') (es : List Expr)
    (h : es.all Expr.isGuard = true) :
    EvalM.SameWay (fun _ => True) (Expr.assertAll ⟨mode, limit⟩ caller es)
      (Expr.assertAll ⟨mode', limit⟩ caller' es) := by
  induction es with
  | nil => exact .pure trivial
  | cons e es ih =>
    rw [List.all_cons, Bool.and_eq_true] at h
    simp only [Expr.assertAll]
    exact (Expr.sameWay_guard hcaller e h.1).branch (ih h.2) (.throw _)

/-! ### Statements -/

mutual

/-- Guarded statements go the same way in two modes, if calls do. -/
theorem Stmt.sameWay_exec (hcaller : caller.SameWay caller') :
    ∀ s : Stmt Nat, s.isGuarded = true → EvalM.SameWay (fun _ => True)
      (s.exec ⟨mode, limit⟩ caller) (s.exec ⟨mode', limit⟩ caller')
  | .assign _ _ none, _ | .pass, _ => by
    simp only [Stmt.exec]
    exact .pure trivial
  | .assign target _ (some e), h => by
    rw [Stmt.isGuarded] at h
    simp only [Stmt.exec]
    exact (Expr.sameWay_eval hcaller e h).bind fun v hv => .define target hv
  | .assert es, h => by
    rw [Stmt.isGuarded] at h
    simp only [Stmt.exec]
    exact (Expr.sameWay_assertAll hcaller es h).bind fun _ _ => .pure trivial
  | .cond condition body none, h => by
    rw [Stmt.isGuarded, Bool.and_eq_true] at h
    simp only [Stmt.exec]
    exact (Expr.sameWay_guard hcaller condition h.1).branch (Stmt.sameWay_execAll hcaller body h.2)
      (.pure trivial)
  | .cond condition body (some orelse), h => by
    rw [Stmt.isGuarded, Bool.and_eq_true, Bool.and_eq_true] at h
    simp only [Stmt.exec]
    exact (Expr.sameWay_guard hcaller condition h.1).branch
      (Stmt.sameWay_execAll hcaller body h.2.1) (Stmt.sameWay_execAll hcaller orelse h.2.2)
  | .ret none, _ => by
    simp only [Stmt.exec]
    exact EvalM.SameWay.bind (P := Value.Guarded) (.pure trivial) fun v hv => .post hv
  | .ret (some e), h => by
    rw [Stmt.isGuarded] at h
    simp only [Stmt.exec]
    exact (Expr.sameWay_eval hcaller e h).bind fun v hv => .post hv
  | .funcDef _ name _ _, h => by
    rw [Stmt.isGuarded] at h
    simp only [Stmt.exec]
    exact .define name h
  | .simple stmts, h => by
    rw [Stmt.isGuarded] at h
    simp only [Stmt.exec]
    exact Stmt.sameWay_execAll hcaller stmts h
  | .expr e, h => by
    rw [Stmt.isGuarded] at h
    simp only [Stmt.exec]
    exact (Expr.sameWay_eval hcaller e h).bind fun _ _ => .pure trivial

/-- Several guarded statements go the same way in two modes, if calls do. -/
theorem Stmt.sameWay_execAll (hcaller : caller.SameWay caller') :
    ∀ ss : List (Stmt Nat), Stmt.allGuarded ss = true → EvalM.SameWay (fun _ => True)
      (Stmt.execAll ⟨mode, limit⟩ caller ss) (Stmt.execAll ⟨mode', limit⟩ caller' ss)
  | [], _ => by
    simp only [Stmt.execAll]
    exact .pure trivial
  | s :: ss, h => by
    rw [Stmt.allGuarded, Bool.and_eq_true] at h
    simp only [Stmt.execAll]
    exact (Stmt.sameWay_exec hcaller s h.1).bind fun _ _ =>
      .ite (.pure trivial) (Stmt.sameWay_execAll hcaller ss h.2)

end

/-! ### Calls -/

/-- The result of a body that leaves a guarded stack is guarded. -/
theorem FuncDef.guarded_of_result {o : Except EvalError Bool × Machine} (h : o.2.env.Guarded)
    {v : Value} (hv : FuncDef.result o = .ok v) : v.Guarded := by
  obtain ⟨e | posted, m⟩ := o
  · cases hv
  · simp only [FuncDef.result] at hv
    split at hv
    · next value rest hframes =>
      obtain rfl := Except.ok.inj hv
      exact h (.ret value) (hframes ▸ List.mem_cons_self)
    · obtain rfl := Except.ok.inj hv
      trivial

/-- Calls of guarded functions with guarded values go the same way in two modes, if the calls in
their bodies do. -/
theorem FuncDef.sameWay_runCall (hread : caller.Reads) (hread' : caller'.Reads)
    (hcaller : caller.SameWay caller') {d : FuncDef Nat} (hd : Stmt.allGuarded d.body = true)
    {values : List Value} (hvalues : ∀ v ∈ values, v.Guarded) :
    EvalM.SameWay Value.Guarded (d.runCall ⟨mode, limit⟩ caller values)
      (d.runCall ⟨mode', limit⟩ caller' values) := by
  intro m hm
  have hentry : (d.entry values m).env.Guarded :=
    hm.push (NameMap.All.ofList_zip d.params hvalues)
  -- The value of the call is read off the stack that the body leaves, so that one is guarded.
  obtain ⟨heq, henv, -⟩ := Stmt.sameWay_execAll hcaller d.body hd (d.entry values m) hentry
  rw [runCall_eq hread, runCall_eq hread', heq]
  exact ⟨rfl, hm, fun v hv => FuncDef.guarded_of_result henv hv⟩

end

/-- However many calls are allowed, they go the same way in two modes. -/
theorem Caller.sameWay_upTo (mode mode' : Truthiness) (limit n : Nat) :
    (Caller.upTo ⟨mode, limit⟩ n).SameWay (Caller.upTo ⟨mode', limit⟩ n) := by
  induction n with
  | zero => exact .refused
  | succ n ih =>
    exact .running fun d values hd hvalues =>
      FuncDef.sameWay_runCall (Caller.reads_upTo _ n) (Caller.reads_upTo _ n) ih hd hvalues

/-! ### Evaluators -/

namespace Evaluator

/-- The evaluator with the truthiness mode set. -/
def inMode (ev : Evaluator) (mode : Truthiness) : Evaluator :=
  { ev with config := { ev.config with truthiness := mode } }

/-- Two operations with the same outcome that leave the same frames, guarded again, and the same
number of calls in progress. -/
structure Alike {α : Type} (r r' : Except EvalError α × Evaluator) : Prop where
  /-- Both have the same result, or the same error. -/
  outcome_eq : r.1 = r'.1
  /-- Both leave the same machine. -/
  machine_eq : r.2.toMachine = r'.2.toMachine
  /-- The stack that they leave is guarded. -/
  guarded : r.2.env.Guarded

variable {ev : Evaluator}

/-- Steps that go the same way make operations that are alike. -/
theorem alike_run {α : Type} {P : α → Prop} {step : Config → Caller → EvalM α}
    (henv : ev.env.Guarded) {mode mode' : Truthiness}
    (hstep : ∀ {caller caller' : Caller}, caller.SameWay caller' → EvalM.SameWay P
      (step ⟨mode, ev.config.maxCallDepth⟩ caller) (step ⟨mode', ev.config.maxCallDepth⟩ caller')) :
    Alike ((ev.inMode mode).run step) ((ev.inMode mode').run step) := by
  have hcaller := Caller.sameWay_upTo mode mode' ev.config.maxCallDepth
    (ev.config.maxCallDepth - ev.callDepth)
  obtain ⟨heq, hguarded, -⟩ := hstep hcaller ev.toMachine henv
  have hresult := congrArg Prod.fst heq.symm
  have hmachine := congrArg Prod.snd heq.symm
  exact ⟨hresult, hmachine, hguarded⟩

/-- Guarded programs go the same way in two modes, if calls do. -/
theorem sameWay_moduleStep {mode mode' : Truthiness} {limit : Nat} {caller caller' : Caller}
    (hcaller : caller.SameWay caller') {program : Block Nat}
    (h : Stmt.allGuarded program = true) :
    EvalM.SameWay (fun _ => True) (moduleStep program ⟨mode, limit⟩ caller)
      (moduleStep program ⟨mode', limit⟩ caller') := by
  rw [moduleStep, moduleStep]
  exact (Stmt.sameWay_execAll hcaller program h).bind fun _ _ =>
    .ite (EvalM.SameWay.pop.bind fun _ _ => .throw _) (.pure trivial)

/-- The truthiness mode shows in no outcome of guarded syntax. Where the functions on the stack have
guarded bodies, a guarded expression has one value or error in both modes, a guarded statement,
block or program one result or error, and what it leaves on the stack is the same and guarded
again. -/
theorem truthiness_unobservable (henv : ev.env.Guarded) :
    (∀ e : Expr, e.isGuarded = true →
      Alike ((ev.inMode .strict).evaluate e) ((ev.inMode .python).evaluate e)) ∧
    (∀ s : Stmt Nat, s.isGuarded = true →
      Alike ((ev.inMode .strict).execute s) ((ev.inMode .python).execute s)) ∧
    (∀ b : Block Nat, Stmt.allGuarded b = true →
      Alike ((ev.inMode .strict).executeBlock b) ((ev.inMode .python).executeBlock b)) ∧
    ∀ program : Block Nat, Stmt.allGuarded program = true →
      Alike ((ev.inMode .strict).executeModule program)
        ((ev.inMode .python).executeModule program) :=
  ⟨fun e he => alike_run henv fun hcaller => Expr.sameWay_eval hcaller e he,
    fun s hs => alike_run henv fun hcaller => Stmt.sameWay_exec hcaller s hs,
    fun b hb => alike_run henv fun hcaller => Stmt.sameWay_execAll hcaller b hb,
    fun _ hprogram => alike_run henv fun hcaller => sameWay_moduleStep hcaller hprogram⟩

/-- A program that tests what a function on the stack returns, which is no truth value for every
argument: both modes run the same branches and bind the same values. -/
theorem truthiness_unobservable_of_mixed_returns :
    let f : FuncDef Nat := ⟨0, "f", ["x"],
      [.cond (.binary .eq (.name "x") (.int 0)) [.ret (some (.bool false))] none,
       .assert [.binary .lt (.int 0) (.name "x")],
       .ret (some (.name "x"))]⟩
    let ev : Evaluator :=
      { env := ⟨[.scope (NameMap.empty.insert "f" (.function f))]⟩, config := {} }
    let e : Expr := .unary .not (.binary .eq (.call (.name "f") [.int 0]) (.bool true))
    let s : Stmt Nat := .cond e [.assign "y" none (some (.call (.name "f") [.int 2]))] none
    let b : Block Nat := [s, .assert [.binary .eq (.name "y") (.int 2)]]
    ev.env.Guarded ∧
      (Alike ((ev.inMode .strict).evaluate e) ((ev.inMode .python).evaluate e) ∧
        ((ev.inMode .python).evaluate e).1 = .ok (.bool true)) ∧
      (Alike ((ev.inMode .strict).execute s) ((ev.inMode .python).execute s) ∧
        ((ev.inMode .python).execute s).2.env.lookup? "y" = some (.int 2)) ∧
      Alike ((ev.inMode .strict).executeBlock b) ((ev.inMode .python).executeBlock b) ∧
      Alike ((ev.inMode .strict).executeModule b) ((ev.inMode .python).executeModule b) := by
  intro f ev e s b
  have hnames : NameMap.All Value.Guarded (NameMap.empty.insert "f" (.function f)) :=
    NameMap.All.empty.insert "f" rfl
  have henv : ev.env.Guarded := fun frame hmem => List.mem_singleton.1 hmem ▸ hnames
  obtain ⟨heval, hexec, hblock, hmodule⟩ := truthiness_unobservable henv
  exact ⟨henv, ⟨heval e rfl, rfl⟩, ⟨hexec s rfl, rfl⟩, hblock b rfl, hmodule b rfl⟩

/-- Without the guard the mode shows. -/
example :
    let ev : Evaluator := { config := {} }
    let e : Expr := .unary .not (.int 1)
    e.isGuarded = false ∧ ((ev.inMode .strict).evaluate e).1 = .ok (.bool true) ∧
      ((ev.inMode .python).evaluate e).1 = .ok (.bool false) :=
  ⟨rfl, rfl, rfl⟩

end Evaluator

end ScopeScript
