import Mathlib.Logic.Relation
import ScopeScript.Proofs.Recursion.Outcome

/-!
# The runs inside a run

What the script of a task may hand on, and on which machine. There are two cases only: a part of its
own syntax, on its own machine save for what a scope on top binds, or the body of a function, on a
machine with the scope of the call on top and one more call in progress. Everything that holds of
all runs inside a run follows from this by induction on how deep they are nested.

* `Invocation.Starts`, `Invocation.Within`: a run that another starts itself, or comes to start.
* `Task.Leads`: the two cases, and the machines in between.
* `Course.All`: what holds at all points of a course and at its end.

Main statement:

* `Task.leads_of_reaches`: what a script reaches is one of the cases.
-/

namespace ScopeScript

/-- A task and the machine on which its run starts. -/
structure Invocation where
  /-- The task. -/
  task : Task
  /-- The machine. -/
  machine : Machine

namespace Invocation

/-- The first run hands the task of the second on, on the machine of the second. -/
def Starts (cfg : Config) (i j : Invocation) : Prop :=
  (i.task.script cfg i.machine).Reaches cfg j.machine (some j.task)

/-- The second run is the first or one that the first comes to start. -/
def Within (cfg : Config) : Invocation → Invocation → Prop :=
  Relation.ReflTransGen (Starts cfg)

end Invocation

/-! ### Where a script leads -/

/-- The task is about the body of a called function. -/
def Task.IsBody : Task → Prop
  | runBody _ => True
  | _ => False

/-- A point to which the run of a task on a machine may come. -/
inductive Task.Leads (cfg : Config) (t : Task) (m : Machine) : Machine → Option Task → Prop where
  /-- A part of the syntax is handed on, with at most some names rebound on top. -/
  | part {t' : Task} {names : List String} {env : Environment} (h : m.env.Rebinds names env)
    (hpart : ¬ t'.IsBody) (hsize : t'.size < t.size) : Leads cfg t m { m with env } (some t')
  /-- The body of a function is handed on, with the scope of its call on top. -/
  | body (d : FuncDef Nat) (values : List Value) (h : m.callDepth < cfg.maxCallDepth) :
    Leads cfg t m (d.entry values m) (some (.runBody d))
  /-- The machine changes, by at most one frame and one call more. -/
  | between {m' : Machine} (hdepth : m'.env.depth ≤ m.env.depth + 1)
    (hcalls : m'.callDepth = m.callDepth ∨
      m.callDepth < cfg.maxCallDepth ∧ m'.callDepth = m.callDepth + 1) : Leads cfg t m m' none

namespace Course

variable {cfg : Config} {α β : Type} {P : Machine → Option Task → Prop}

/-- All points that a course reaches satisfy the one, and its outcome the other. -/
def All (cfg : Config) (P : Machine → Option Task → Prop) (Q : Outcome α → Prop) :
    Course α → Prop
  | ended outcome => Q outcome
  | moved m rest => P m none ∧ rest.All cfg P Q
  | started t m next => P m (some t) ∧ (next (t.perform cfg m)).All cfg P Q

/-- What holds at all points holds at each that is reached. -/
theorem All.of_reaches {Q : Outcome α → Prop} {c : Course α} {m : Machine} {t? : Option Task}
    (h : c.All cfg P Q) (hreach : c.Reaches cfg m t?) : P m t? := by
  induction hreach with
  | moved => exact h.1
  | started => exact h.1
  | afterMove _ _ ih => exact ih h.2
  | afterTask hanswer _ ih =>
    -- The course goes on with the one outcome of the task.
    obtain rfl := Task.ends_iff.1 hanswer
    exact ih h.2

/-- A course that goes on after another. -/
theorem All.andThen {Q : Outcome β → Prop} {next : Outcome α → Course β} :
    ∀ {c : Course α}, c.All cfg P (fun o => (next o).All cfg P Q) → (c.andThen next).All cfg P Q
  | ended _, h => h
  | moved _ _, h => ⟨h.1, All.andThen h.2⟩
  | started _ _ _, h => ⟨h.1, All.andThen h.2⟩

/-- A weaker property of the outcome. -/
theorem All.mono {Q Q' : Outcome α → Prop} (hQ : ∀ o, Q o → Q' o) :
    ∀ {c : Course α}, c.All cfg P Q → c.All cfg P Q'
  | ended _, h => hQ _ h
  | moved _ _, h => ⟨h.1, All.mono hQ h.2⟩
  | started _ _ _, h => ⟨h.1, All.mono hQ h.2⟩

end Course

/-! ### Scripts that only look -/

namespace Script

variable {cfg : Config} {α β : Type} {P : Machine → Option Task → Prop} {m : Machine}

/-- On the machine, the script reaches only points with the property and leaves the machine as it
is. -/
def Looks (cfg : Config) (P : Machine → Option Task → Prop) (m : Machine) (script : Script α) :
    Prop :=
  (script m).All cfg P fun o => o.2 = m

/-- A known result. -/
theorem looks_pure (a : α) : Looks cfg P m (pure a) :=
  rfl

/-- A step that only reads. -/
theorem looks_ofStep {step : EvalM α} (hread : EvalM.Reads step) (hm : P m none) :
    Looks cfg P m (ofStep step) := by
  have hstay : (step m).2 = m := hread m
  refine ⟨?_, hstay⟩
  rw [hstay]
  exact hm

/-- An expression that is handed on. -/
theorem looks_eval {e : Expr} (he : P m (some (.eval e))) : Looks cfg P m (eval e) :=
  ⟨he, Expr.reads_eval (Caller.reads_atDepth cfg m.callDepth) e m⟩

/-- Where only the points matter. -/
theorem Looks.all {script : Script α} (h : Looks cfg P m script) :
    (script m).All cfg P fun _ => True :=
  Course.All.mono (fun _ _ => trivial) h

/-- A script that follows one which only looks starts on the same machine. -/
theorem Looks.bind_all {script : Script α} {next : α → Script β} {Q : Outcome β → Prop}
    (h : Looks cfg P m script) (herror : ∀ e, Q (.error e, m))
    (hnext : ∀ a, (next a m).All cfg P Q) : ((script >>= next) m).All cfg P Q := by
  refine Course.All.andThen (Course.All.mono ?_ h)
  rintro ⟨e | a, m'⟩ rfl
  · exact herror e
  · exact hnext a

/-- A script that follows one which only looks, where only the points matter. -/
theorem Looks.all_bind {script : Script α} {next : α → Script β} (h : Looks cfg P m script)
    (hnext : ∀ a, (next a m).All cfg P fun _ => True) :
    ((script >>= next) m).All cfg P fun _ => True :=
  h.bind_all (fun _ => trivial) hnext

/-- Two scripts in a row only look if both do. -/
theorem Looks.bind {script : Script α} {next : α → Script β} (h : Looks cfg P m script)
    (hnext : ∀ a, Looks cfg P m (next a)) : Looks cfg P m (script >>= next) :=
  h.bind_all (fun _ => rfl) hnext

/-- Several expressions that are handed on. -/
theorem looks_evalEach {es : List Expr} (h : ∀ e ∈ es, P m (some (.eval e))) :
    Looks cfg P m (evalEach es) := by
  induction es with
  | nil => exact looks_pure _
  | cons e es ih =>
    obtain ⟨he, hes⟩ := List.forall_mem_cons.1 h
    exact (looks_eval he).bind fun _ => (ih hes).bind fun _ => looks_pure _

/-- Several asserted expressions that are handed on. -/
theorem looks_assertEach (hm : P m none) {es : List Expr} (h : ∀ e ∈ es, P m (some (.eval e))) :
    Looks cfg P m (assertEach cfg es) := by
  induction es with
  | nil => exact looks_pure _
  | cons e es ih =>
    obtain ⟨he, hes⟩ := List.forall_mem_cons.1 h
    refine (looks_eval he).bind fun v => ?_
    split
    · exact ih hes
    · exact looks_ofStep (EvalM.reads_throw _) hm

/-- A single step and what follows it if it succeeds. -/
theorem all_ofStep_bind {step : EvalM α} {next : α → Script β} (hm : P (step m).2 none)
    (hnext : ∀ a m', step m = (.ok a, m') → (next a m').All cfg P fun _ => True) :
    ((ofStep step >>= next) m).All cfg P fun _ => True := by
  refine ⟨hm, ?_⟩
  rcases hout : step m with ⟨e | a, m'⟩
  · trivial
  · exact hnext a m' hout

/-- A script while one more call is in progress. -/
theorem all_inCall {script : Script α} {Q : Outcome α → Prop}
    (hentered : P { m with callDepth := m.callDepth + 1 } none)
    (h : (script { m with callDepth := m.callDepth + 1 }).All cfg P fun o =>
      P { o.2 with callDepth := o.2.callDepth - 1 } none ∧
        Q (o.1, { o.2 with callDepth := o.2.callDepth - 1 })) :
    (inCall script m).All cfg P Q :=
  ⟨hentered, Course.All.andThen h⟩

/-- A script whose frames are cut off if it fails. -/
theorem all_cutBackOnFailure {script : Script α} {height : Nat} {Q : Outcome α → Prop}
    (h : (script m).All cfg P fun
      | (.ok a, m') => Q (.ok a, m')
      | (.error e, m') => P { m' with env := m'.env.truncate height } none ∧
        Q (.error e, { m' with env := m'.env.truncate height })) :
    (cutBackOnFailure height script m).All cfg P Q := by
  refine Course.All.andThen (Course.All.mono ?_ h)
  rintro ⟨e | a, m'⟩ h
  · exact h
  · exact h

end Script

/-! ### Expressions -/

/-- The second machine has at most one frame more than the first, and as many calls in progress. -/
def Machine.Near (m m' : Machine) : Prop :=
  m'.env.depth ≤ m.env.depth + 1 ∧ m'.callDepth = m.callDepth

/-- A frame on top of a rebinding. -/
theorem Environment.Rebinds.near_push {names : List String} {m : Machine} {env : Environment}
    (h : m.env.Rebinds names env) (frame : Frame) : m.Near { m with env := env.push frame } :=
  ⟨Nat.succ_le_succ (Nat.le_of_eq h.depth_eq), rfl⟩

section

variable {cfg : Config} {m : Machine} {t t' : Task}

/-- A machine near the one that the run starts on, with nothing handed on. -/
theorem Task.leads_of_near {m' : Machine} (h : m.Near m') : t.Leads cfg m m' none :=
  .between h.1 (.inl h.2)

/-- The machine itself, with nothing handed on. -/
theorem Task.leads_self : t.Leads cfg m m none :=
  Task.leads_of_near ⟨Nat.le_succ _, rfl⟩

/-- A part of the syntax that is handed on while nothing has changed. -/
theorem Task.leads_part (hpart : ¬ t'.IsBody) (hsize : t'.size < t.size) :
    t.Leads cfg m m (some t') :=
  .part (.same m.env : m.env.Rebinds [] m.env) hpart hsize

/-- An expression that is handed on while nothing has changed. -/
theorem Task.leads_eval {e : Expr} (hsize : sizeOf e < t.size) :
    t.Leads cfg m m (some (.eval e)) :=
  Task.leads_part id hsize

/-- An expression that is handed on while nothing has changed, and a script that follows. -/
theorem Script.all_eval_bind {e : Expr} (hsize : sizeOf e < t.size) {β : Type}
    {next : Value → Script β} (hnext : ∀ v, (next v m).All cfg (t.Leads cfg m) fun _ => True) :
    ((Script.eval e >>= next) m).All cfg (t.Leads cfg m) fun _ => True :=
  (Script.looks_eval (Task.leads_eval hsize)).all_bind hnext

/-- A failure, which changes nothing. -/
theorem Task.looks_throw {α : Type} (e : EvalError) :
    Script.Looks cfg (t.Leads cfg m) m (Script.ofStep (throw e : EvalM α)) :=
  Script.looks_ofStep (EvalM.reads_throw e) Task.leads_self

/-- The body of a called function leaves at most the scope of its call above the frames of the
caller. -/
theorem FuncDef.depth_perform_entry (d : FuncDef Nat) (values : List Value) (m : Machine) :
    ((Task.runBody d).perform cfg (d.entry values m)).2.env.depth ≤ m.env.depth + 1 := by
  have hsettles : EvalM.Settles (Stmt.boundAll d.body)
      (Stmt.execAll cfg (Caller.atDepth cfg (d.entry values m).callDepth) d.body) :=
    Stmt.settles_execAll (Caller.reads_atDepth _ _) d.body (List.Subset.refl _)
  have hbody := hsettles (d.entry values m)
  show (d.runBody cfg (Caller.atDepth cfg (d.entry values m).callDepth)
    (d.entry values m)).2.env.depth ≤ _
  generalize hout : Stmt.execAll cfg (Caller.atDepth cfg (d.entry values m).callDepth) d.body
    (d.entry values m) = outcome at hbody
  cases hbody with
  | next h =>
    obtain ⟨b, -, rfl⟩ := h.exists_scope
    rw [runBody_of_next hout]
    exact Nat.le_succ _
  | posted h value =>
    obtain ⟨b, -, rfl⟩ := h.exists_scope
    rw [runBody_of_posted hout]
    exact Nat.le_succ _
  | failed h e =>
    rw [runBody_of_error hout]
    exact Nat.le_of_eq h.depth_eq

/-- A call hands on the body of the function. Before and after, there is at most the scope of the
call above the frames of the caller. -/
theorem Script.all_call (hallowed : m.callDepth < cfg.maxCallDepth) (d : FuncDef Nat)
    (values : List Value) :
    (Script.call d values m).All cfg (t.Leads cfg m) fun _ => True := by
  have hbody : (Script.start (.runBody d) (d.entry values m)).All cfg (t.Leads cfg m)
      fun o => o.2.callDepth = m.callDepth + 1 ∧ o.2.env.depth ≤ m.env.depth + 1 :=
    ⟨.body d values hallowed, Task.callDepth_perform _ _, d.depth_perform_entry values m⟩
  have hcall : (Script.inCall (Script.start (.runBody d))
      { m with env := m.env.push (.scope (.ofList (d.params.zip values))) }).All cfg
        (t.Leads cfg m) fun o => m.Near o.2 := by
    refine Script.all_inCall (.between (Nat.le_refl _) (.inr ⟨hallowed, rfl⟩)) (hbody.mono ?_)
    rintro ⟨result, m'⟩ ⟨hcalls, hdepth⟩
    have hnear : m.Near { m' with callDepth := m'.callDepth - 1 } :=
      ⟨hdepth, Nat.sub_eq_of_eq_add hcalls⟩
    exact ⟨Task.leads_of_near hnear, hnear⟩
  refine Script.all_cutBackOnFailure ⟨Task.leads_of_near ⟨Nat.le_refl _, rfl⟩, hcall.mono ?_⟩
  rintro ⟨e | value, m'⟩ hnear
  · refine ⟨Task.leads_of_near ⟨?_, hnear.2⟩, trivial⟩
    rw [Environment.depth_truncate]
    exact Nat.le_trans (Nat.min_le_left _ _) (Nat.le_succ _)
  · trivial

/-- The script of an expression hands on its parts, and calls. -/
theorem Expr.all_script (e : Expr) :
    (e.script cfg m).All cfg ((Task.eval e).Leads cfg m) fun _ => True := by
  cases e with
  | none | bool | int => trivial
  | name id => exact (Script.looks_ofStep (EvalM.reads_asks _) Task.leads_self).all
  | unary op e =>
    cases op with
    | not =>
      have he : sizeOf e < (Task.eval (.unary .not e)).size := by
        simp only [Task.size, Expr.unary.sizeOf_spec]; omega
      exact Script.all_eval_bind he fun _ => trivial
    | neg | pos | bitNot | star => exact (Task.looks_throw _).all
  | binary op a b =>
    have ha : sizeOf a < (Task.eval (.binary op a b)).size := by
      simp only [Task.size, Expr.binary.sizeOf_spec]; omega
    have hb : sizeOf b < (Task.eval (.binary op a b)).size := by
      simp only [Task.size, Expr.binary.sizeOf_spec]; omega
    simp only [Expr.script]
    cases op.meaning? cfg.truthiness with
    | none => exact (Task.looks_throw _).all
    | some meaning =>
      refine Script.all_eval_bind ha fun x => ?_
      refine Script.all_eval_bind hb fun y => ?_
      exact (Script.looks_ofStep (EvalM.reads_ofExcept _) Task.leads_self).all
  | ternary body condition orelse =>
    have hsize : (Task.eval (.ternary body condition orelse)).size =
      1 + sizeOf body + sizeOf condition + sizeOf orelse := Expr.ternary.sizeOf_spec ..
    simp only [Expr.script]
    refine Script.all_eval_bind (by omega) fun v => ?_
    split
    · exact (Script.looks_eval (Task.leads_eval (by omega))).all
    · exact (Script.looks_eval (Task.leads_eval (by omega))).all
  | call callee args =>
    have hcallee : sizeOf callee < (Task.eval (.call callee args)).size := by
      simp only [Task.size, Expr.call.sizeOf_spec]; omega
    have hargs : ∀ e ∈ args, sizeOf e < (Task.eval (.call callee args)).size := by
      intro e he
      have := List.sizeOf_lt_of_mem he
      simp only [Task.size, Expr.call.sizeOf_spec]; omega
    simp only [Expr.script]
    refine Script.all_eval_bind hcallee fun v => ?_
    refine (Script.looks_ofStep (EvalM.reads_ofExcept _) Task.leads_self).all_bind fun d => ?_
    split
    · unfold Script.ifAllowed
      split
      · exact (Task.looks_throw _).all
      · -- The arguments only look, so the call starts on the machine of the caller.
        next hlt =>
        have hlooks : Script.Looks cfg ((Task.eval (.call callee args)).Leads cfg m) m
            (Script.evalEach args) :=
          Script.looks_evalEach fun e he => Task.leads_eval (hargs e he)
        exact hlooks.all_bind fun values => Script.all_call (Nat.lt_of_not_le hlt) d values
    · exact (Task.looks_throw _).all

/-! ### Statements -/

/-- Binding a name on top. -/
theorem Script.all_define (name : String) (value : Value) :
    ((do
      Script.ofStep (EvalM.changes (·.define name value))
      return false : Script Bool) m).All cfg (t.Leads cfg m) fun _ => True := by
  refine Script.all_ofStep_bind ?_ fun _ _ _ => trivial
  rw [EvalM.changes]
  cases h : m.env.define name value with
  | error e => exact Task.leads_self
  | ok env =>
    have hrebinds : m.env.Rebinds [name] env := .of_define List.mem_cons_self h
    exact Task.leads_of_near ⟨Nat.le_succ_of_le (Nat.le_of_eq hrebinds.depth_eq), rfl⟩

/-- Posting a return. -/
theorem Script.all_post (value : Value) :
    ((do
      Script.ofStep (EvalM.push (.ret value))
      return true : Script Bool) m).All cfg (t.Leads cfg m) fun _ => True :=
  Script.all_ofStep_bind (Task.leads_of_near ⟨Nat.le_refl _, rfl⟩) fun _ _ _ => trivial

/-- Statements that are handed on while nothing has changed. -/
theorem Script.all_execAll {ss : List (Stmt Nat)} (hsize : sizeOf ss < t.size) :
    (Script.execAll ss m).All cfg (t.Leads cfg m) fun _ => True :=
  ⟨Task.leads_part id hsize, trivial⟩

/-- The script of a statement hands on its parts. -/
theorem Stmt.all_script (s : Stmt Nat) :
    (s.script cfg m).All cfg ((Task.exec s).Leads cfg m) fun _ => True := by
  cases s with
  | assign target hint value =>
    cases value with
    | none => trivial
    | some e =>
      have he : sizeOf e < (Task.exec (.assign target hint (some e))).size := by
        simp only [Task.size, Stmt.assign.sizeOf_spec, Option.some.sizeOf_spec]; omega
      simp only [Stmt.script]
      exact Script.all_eval_bind he fun v => Script.all_define target v
  | assert es =>
    have hes : ∀ e ∈ es, sizeOf e < (Task.exec (.assert es)).size := by
      intro e he
      have := List.sizeOf_lt_of_mem he
      simp only [Task.size, Stmt.assert.sizeOf_spec]; omega
    have hlooks : Script.Looks cfg ((Task.exec (.assert es)).Leads cfg m) m
        (Script.assertEach cfg es) :=
      Script.looks_assertEach Task.leads_self fun e he => Task.leads_eval (hes e he)
    simp only [Stmt.script]
    exact hlooks.all_bind fun _ => trivial
  | cond condition body orelse =>
    have hcondition : sizeOf condition < (Task.exec (.cond condition body orelse)).size := by
      simp only [Task.size, Stmt.cond.sizeOf_spec]; omega
    have hbody : sizeOf body < (Task.exec (.cond condition body orelse)).size := by
      simp only [Task.size, Stmt.cond.sizeOf_spec]; omega
    cases orelse with
    | none =>
      simp only [Stmt.script]
      refine Script.all_eval_bind hcondition fun v => ?_
      split
      · exact Script.all_execAll hbody
      · trivial
    | some orelse =>
      have horelse : sizeOf orelse < (Task.exec (.cond condition body (some orelse))).size := by
        simp only [Task.size, Stmt.cond.sizeOf_spec, Option.some.sizeOf_spec]; omega
      simp only [Stmt.script]
      refine Script.all_eval_bind hcondition fun v => ?_
      split
      · exact Script.all_execAll hbody
      · exact Script.all_execAll horelse
  | ret value =>
    cases value with
    | none =>
      simp only [Stmt.script]
      exact (Script.looks_pure Value.none).all_bind Script.all_post
    | some e =>
      have he : sizeOf e < (Task.exec (.ret (some e))).size := by
        simp only [Task.size, Stmt.ret.sizeOf_spec, Option.some.sizeOf_spec]; omega
      simp only [Stmt.script]
      exact Script.all_eval_bind he Script.all_post
  | funcDef tag name params body =>
    simp only [Stmt.script]
    exact Script.all_define name _
  | simple stmts =>
    have hstmts : sizeOf stmts < (Task.exec (.simple stmts)).size := by
      simp only [Task.size, Stmt.simple.sizeOf_spec]; omega
    exact Script.all_execAll hstmts
  | expr e =>
    have he : sizeOf e < (Task.exec (.expr e)).size := by
      simp only [Task.size, Stmt.expr.sizeOf_spec]; omega
    simp only [Stmt.script]
    exact Script.all_eval_bind he fun _ => trivial
  | pass => trivial

/-- What statements leave when they are run as a task of their own. -/
theorem Task.settled_execAll (cfg : Config) (ss : List (Stmt Nat)) (m : Machine) :
    m.Settled (Stmt.boundAll ss) ((Task.execAll ss).perform cfg m) :=
  Stmt.settles_execAll (Caller.reads_atDepth cfg m.callDepth) ss (List.Subset.refl _) m

/-- What a statement leaves when it is run as a task of its own, for given names that include those
that it binds. -/
theorem Task.settled_exec (cfg : Config) {names : List String} {s : Stmt Nat}
    (hs : s.bound ⊆ names) (m : Machine) : m.Settled names ((Task.exec s).perform cfg m) :=
  Stmt.settles_exec (Caller.reads_atDepth cfg m.callDepth) s hs m

/-- Each of several statements is handed on with at most the names rebound that those before it
bind. -/
theorem Script.all_execEach {names : List String} {ss : List (Stmt Nat)}
    (hnames : Stmt.boundAll ss ⊆ names) (hsize : ∀ s ∈ ss, sizeOf s < t.size) {env : Environment}
    (henv : m.env.Rebinds names env) :
    (Script.execEach ss { m with env }).All cfg (t.Leads cfg m) fun _ => True := by
  induction ss generalizing env with
  | nil => trivial
  | cons s ss ih =>
    obtain ⟨hs, hss⟩ := List.forall_mem_cons.1 hsize
    rw [Stmt.boundAll, List.append_subset] at hnames
    refine ⟨.part henv id hs, ?_⟩
    -- What this statement rebinds comes on top of what those before it rebound.
    have hsettled := Task.settled_exec cfg hnames.1 { m with env }
    generalize (Task.exec s).perform cfg { m with env } = outcome at hsettled
    cases hsettled with
    | next h => exact ih hnames.2 hss (henv.trans h)
    | posted => trivial
    | failed => trivial

/-- A pop adds no frame. -/
theorem EvalM.depth_pop_le (m : Machine) : (EvalM.pop m).2.env.depth ≤ m.env.depth := by
  obtain ⟨⟨frames⟩, callDepth⟩ := m
  cases frames with
  | nil => exact Nat.le_refl _
  | cons frame rest => exact Nat.le_succ rest.length

/-- A frame taken off a machine that is near the one a run starts on. -/
theorem Script.all_pop {α : Type} {m' : Machine} (hnear : m.Near m') {next : Frame → Script α}
    (hnext : ∀ frame m₁, m.Near m₁ → (next frame m₁).All cfg (t.Leads cfg m) fun _ => True) :
    ((Script.ofStep EvalM.pop >>= next) m').All cfg (t.Leads cfg m) fun _ => True := by
  have hpopped : m.Near (EvalM.pop m').2 :=
    ⟨Nat.le_trans (EvalM.depth_pop_le m') hnear.1, (EvalM.keepsCalls_pop m').trans hnear.2⟩
  refine Script.all_ofStep_bind (Task.leads_of_near hpopped) fun frame m₁ hout => ?_
  rw [hout] at hpopped
  exact hnext frame m₁ hpopped

/-- A failure on a machine that is near the one a run starts on. -/
theorem Script.all_throw {α : Type} {m' : Machine} (hnear : m.Near m') (e : EvalError) :
    (Script.ofStep (throw e : EvalM α) m').All cfg (t.Leads cfg m) fun _ => True :=
  ⟨Task.leads_of_near hnear, trivial⟩

/-- Taking the frames of a call off the stack. -/
theorem Script.all_collect {m' : Machine} (hnear : m.Near m') :
    (Script.collect m').All cfg (t.Leads cfg m) fun _ => True := by
  refine Script.all_pop hnear fun frame m₁ hnear₁ => ?_
  cases frame with
  | scope => exact Script.all_throw hnear₁ _
  | ret value =>
    refine Script.all_pop hnear₁ fun frame m₂ hnear₂ => ?_
    cases frame with
    | scope => trivial
    | ret => exact Script.all_throw hnear₂ _

/-- The script of a body hands on its statements. A return is posted above the frames that it is run
on, and then frames are taken off. -/
theorem FuncDef.all_script (d : FuncDef Nat) :
    (d.script m).All cfg ((Task.runBody d).Leads cfg m) fun _ => True := by
  refine ⟨Task.leads_part id (Nat.lt_succ_self _), ?_⟩
  have hsettled := Task.settled_execAll cfg d.body m
  generalize (Task.execAll d.body).perform cfg m = outcome at hsettled
  cases hsettled with
  | next h => exact ⟨Task.leads_of_near (h.near_push _), Script.all_collect (h.near_push _)⟩
  | posted h value => exact Script.all_collect (h.near_push _)
  | failed => trivial

/-- The script of a program hands on its statements, and takes a posted return off the stack. -/
theorem Task.all_program (b : Block Nat) :
    ((Task.program b).script cfg m).All cfg ((Task.program b).Leads cfg m) fun _ => True := by
  refine ⟨Task.leads_part id (Nat.lt_succ_self _), ?_⟩
  have hsettled := Task.settled_execAll cfg b m
  generalize (Task.execAll b).perform cfg m = outcome at hsettled
  cases hsettled with
  | next => trivial
  | @posted env h value =>
    have hnear : m.Near { m with env := env.push (.ret value) } := h.near_push _
    exact Script.all_pop hnear fun _ _ hnear => Script.all_throw hnear _
  | failed => trivial

/-- What the script of a task reaches is a part of its own syntax, the body of a function, or a
machine in between. -/
theorem Task.leads_of_reaches {m' : Machine} {t? : Option Task}
    (h : (t.script cfg m).Reaches cfg m' t?) : t.Leads cfg m m' t? := by
  have hall : (t.script cfg m).All cfg (t.Leads cfg m) fun _ => True := by
    cases t with
    | eval e => exact e.all_script
    | runBody d => exact d.all_script
    | exec s => exact s.all_script
    | execAll ss =>
      exact Script.all_execEach (List.Subset.refl _) (fun s hs => List.sizeOf_lt_of_mem hs)
        (.same m.env)
    | program b => exact Task.all_program b
  exact hall.of_reaches h

end

end ScopeScript
