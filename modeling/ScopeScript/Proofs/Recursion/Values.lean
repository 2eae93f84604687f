import ScopeScript.Proofs.Evaluation.Stored
import ScopeScript.Proofs.Program.Definitions
import ScopeScript.Proofs.Recursion.Nested

/-!
# The values of a program

A run of a program makes no other values than `None`, truth values, integers and the functions that
the program defines, at any depth of nesting. A script brings in values of these kinds only, as long
as the stack and the answers to the tasks that it hands on do; that the answers do is the same
property of their own scripts, so it follows along the way in which a run ends.

* `Value.Own`: the values that a program makes.
* `Task.Own`: the tasks that are about parts of the program.
* `Course.Own`: a course that keeps to own values if the tasks that it hands on do.

Main statements:

* `Task.own_script`: the script of a task about the program keeps to own values.
* `Invocation.Within.own`: every run inside a run with own values starts with own values.
* `Invocation.Own.outcome`: a run that starts with own values gives an own value and leaves such.
-/

namespace ScopeScript

/-- The value is one that the program makes. A function is told by the definition that made it, so
it is the program's own if the definition occurs in the program. -/
inductive Value.Own (program : Block Nat) : Value → Prop where
  /-- `None`. -/
  | none : Own program none
  /-- A truth value. -/
  | bool (b : Bool) : Own program (bool b)
  /-- An integer. -/
  | int (n : Int64) : Own program (int n)
  /-- The function of a definition that occurs in the program. -/
  | function {d : FuncDef Nat} (h : d ∈ Stmt.defsAll program) : Own program (function d)

section

variable {program : Block Nat}

/-- A truth value or an integer is own. -/
theorem Value.own_of_kind {v : Value} (h : v.kind = .bool ∨ v.kind = .int) : v.Own program := by
  cases v with
  | bool b => exact .bool b
  | int n => exact .int n
  | none | function | unsupported => rcases h with h | h <;> cases h

/-- The function that an own value is occurs in the program. -/
theorem Value.Own.mem_defsAll {v : Value} (h : v.Own program) {d : FuncDef Nat}
    (hd : v.asFunction = .ok d) : d ∈ Stmt.defsAll program := by
  cases h with
  | function hmem => exact Except.ok.inj hd ▸ hmem
  | none | bool | int => cases hd

end

/-- The values on the stack of the machine are own. -/
def Machine.Own (program : Block Nat) (m : Machine) : Prop :=
  m.env.All (Value.Own program)

namespace Task

/-- The task defines no other functions than the program does. An expression defines none. -/
def Own (program : Block Nat) : Task → Prop
  | eval _ => True
  | runBody d => d ∈ Stmt.defsAll program
  | exec s => s.defs ⊆ Stmt.defsAll program
  | execAll ss => Stmt.defsAll ss ⊆ Stmt.defsAll program
  | .program b => Stmt.defsAll b ⊆ Stmt.defsAll program

/-- The result of the task, if it is a value, is own. -/
def Gives (program : Block Nat) : (t : Task) → t.Result → Prop
  | eval _ => fun v => v.Own program
  | runBody _ => fun v => v.Own program
  | exec _ => fun _ => True
  | execAll _ => fun _ => True
  | .program _ => fun _ => True

end Task

/-- A result with the property, or an error, on a machine with own values. -/
def Outcome.Own (program : Block Nat) {α : Type} (Q : α → Prop) (o : Outcome α) : Prop :=
  o.2.Own program ∧ ∀ a, o.1 = .ok a → Q a

/-! ### Courses that keep to own values -/

namespace Course

variable {cfg : Config} {program : Block Nat} {α β : Type} {P : α → Prop} {Q : β → Prop}

/-- The course keeps to own values: so do the machines that it comes to, the tasks that it hands on
are about the program, and whatever own outcome such a task has, the rest keeps to own values. -/
def Own (program : Block Nat) (Q : α → Prop) : Course α → Prop
  | ended o => Outcome.Own program Q o
  | moved m rest => m.Own program ∧ rest.Own program Q
  | started t m next => (m.Own program ∧ t.Own program) ∧
    ∀ answer, Outcome.Own program (t.Gives program) answer → (next answer).Own program Q

/-- A course that goes on after another. -/
theorem Own.andThen {next : Outcome α → Course β} :
    ∀ {c : Course α}, c.Own program P →
      (∀ o, Outcome.Own program P o → (next o).Own program Q) → (c.andThen next).Own program Q
  | ended o, h, hnext => hnext o h
  | moved _ _, h, hnext => ⟨h.1, Own.andThen h.2 hnext⟩
  | started _ _ _, h, hnext => ⟨h.1, fun answer hanswer => Own.andThen (h.2 answer hanswer) hnext⟩

end Course

namespace Script

variable {cfg : Config} {program : Block Nat} {α β : Type} {P : α → Prop} {Q : β → Prop}

/-- From every machine with own values, the script keeps to own values. -/
def Own (program : Block Nat) (Q : α → Prop) (script : Script α) : Prop :=
  ∀ m : Machine, m.Own program → (script m).Own program Q

/-- A known result with the property. -/
theorem own_pure {a : α} (h : P a) : Own program P (pure a) := by
  intro m hm
  refine ⟨hm, fun a' ha => ?_⟩
  obtain rfl := Except.ok.inj ha
  exact h

/-- A step that leaves own values and gives results with the property. -/
theorem own_ofStep {step : EvalM α} (h : ∀ m : Machine, m.Own program →
    Outcome.Own program P (step m)) : Own program P (ofStep step) :=
  fun m hm => ⟨(h m hm).1, h m hm⟩

/-- A failure. -/
theorem own_throw (e : EvalError) : Own program P (ofStep (throw e : EvalM α)) := by
  refine own_ofStep fun m hm => ⟨hm, fun a ha => ?_⟩
  cases ha

/-- A result that is known to be own, or an error. -/
theorem own_ofExcept {result : Except EvalError α} (h : ∀ a, result = .ok a → P a) :
    Own program P (ofStep (EvalM.ofExcept result)) :=
  own_ofStep fun _ hm => ⟨hm, h⟩

/-- One more frame with own values. -/
theorem own_push {frame : Frame} (h : frame.All (Value.Own program)) :
    Own program (fun _ => True) (ofStep (EvalM.push frame)) :=
  own_ofStep fun _ hm => ⟨hm.push h, fun _ _ => trivial⟩

/-- An own value that is returned. -/
theorem own_post {v : Value} (hv : v.Own program) :
    Own program (fun _ => True) (ofStep (EvalM.push (.ret v))) :=
  own_push hv

/-- The frame on top, which holds own values. -/
theorem own_pop : Own program (Frame.All (Value.Own program)) (ofStep EvalM.pop) := by
  refine own_ofStep fun m hm => ?_
  rw [EvalM.pop]
  cases hpop : m.env.pop with
  | error e =>
    refine ⟨hm, fun frame hframe => ?_⟩
    cases hframe
  | ok popped =>
    obtain ⟨hframe, hrest⟩ := hm.of_pop hpop
    refine ⟨hrest, fun frame h => ?_⟩
    obtain rfl := Except.ok.inj h
    exact hframe

/-- An own value bound on top. -/
theorem own_define (name : String) {v : Value} (hv : v.Own program) :
    Own program (fun _ => True) (ofStep (EvalM.changes (·.define name v))) := by
  refine own_ofStep fun m hm => ?_
  rw [EvalM.changes]
  cases hdefine : m.env.define name v with
  | error e => exact ⟨hm, fun _ _ => trivial⟩
  | ok env => exact ⟨hm.define hv hdefine, fun _ _ => trivial⟩

/-- A task about the program that is handed on. -/
theorem own_start {t : Task} (h : t.Own program) : Own program (t.Gives program) (start t) :=
  fun _ hm => ⟨⟨hm, h⟩, fun _ hanswer => hanswer⟩

/-- An expression that is handed on. -/
theorem own_eval (e : Expr) : Own program (Value.Own program) (eval e) :=
  own_start (t := .eval e) trivial

/-- Statements of the program that are handed on. -/
theorem own_execAll {ss : List (Stmt Nat)} (h : Stmt.defsAll ss ⊆ Stmt.defsAll program) :
    Own program (fun _ => True) (execAll ss) :=
  own_start (t := .execAll ss) h

/-- A script and what follows it. -/
theorem Own.bind {script : Script α} {next : α → Script β} (h : Own program P script)
    (hnext : ∀ a, P a → Own program Q (next a)) : Own program Q (script >>= next) := by
  intro m hm
  refine (h m hm).andThen ?_
  rintro ⟨e | a, m'⟩ ⟨hm', hresult⟩
  · refine ⟨hm', fun b hb => ?_⟩
    cases hb
  · exact hnext a (hresult a rfl) m' hm'

/-- A choice between two scripts. -/
theorem Own.ite {c : Prop} [Decidable c] {script other : Script α} (h : Own program P script)
    (hother : Own program P other) : Own program P (if c then script else other) := by
  split
  · exact h
  · exact hother

/-- A script that is followed if one more call may be in progress. -/
theorem Own.ifAllowed {script : Script α} (h : Own program P script) :
    Own program P (ifAllowed cfg script) := by
  intro m hm
  unfold Script.ifAllowed
  split
  · exact own_throw _ m hm
  · exact h m hm

/-- A script while one more call is in progress. The count of the calls holds no value. -/
theorem Own.inCall {script : Script α} (h : Own program P script) :
    Own program P (inCall script) := by
  intro m hm
  refine ⟨hm, (h { m with callDepth := m.callDepth + 1 } hm).andThen ?_⟩
  rintro ⟨result, m'⟩ ⟨hm', hresult⟩
  exact ⟨hm', hm', hresult⟩

/-- A script whose frames are cut off if it fails. -/
theorem Own.cutBackOnFailure {script : Script α} (height : Nat) (h : Own program P script) :
    Own program P (cutBackOnFailure height script) := by
  intro m hm
  refine (h m hm).andThen ?_
  rintro ⟨e | a, m'⟩ ⟨hm', hresult⟩
  · have hcut : Machine.Own program { m' with env := m'.env.truncate height } :=
      Environment.All.truncate hm' height
    refine ⟨hcut, hcut, fun a ha => ?_⟩
    cases ha
  · exact ⟨hm', hresult⟩

/-! ### Expressions -/

/-- Calling a function of the program with own values. -/
theorem own_call {d : FuncDef Nat} (hd : d ∈ Stmt.defsAll program) {values : List Value}
    (hvalues : ∀ v ∈ values, v.Own program) :
    Own program (Value.Own program) (call d values) := by
  intro m hm
  have hscope : Frame.All (Value.Own program) (.scope (.ofList (d.params.zip values))) :=
    NameMap.All.ofList_zip d.params hvalues
  have hbody : Own program (Value.Own program) (start (.runBody d)) :=
    own_start (t := .runBody d) hd
  exact (((own_push hscope).bind fun _ _ => hbody.inCall).cutBackOnFailure m.env.depth) m hm

/-- Several expressions that are handed on. -/
theorem own_evalEach (es : List Expr) :
    Own program (fun vs => ∀ v ∈ vs, v.Own program) (evalEach es) := by
  induction es with
  | nil => exact own_pure (by simp)
  | cons e es ih =>
    exact (own_eval e).bind fun v hv => ih.bind fun vs hvs =>
      own_pure (List.forall_mem_cons.2 ⟨hv, hvs⟩)

/-- Several asserted expressions that are handed on. -/
theorem own_assertEach (es : List Expr) :
    Own program (fun _ => True) (assertEach cfg es) := by
  induction es with
  | nil => exact own_pure trivial
  | cons e es ih => exact (own_eval e).bind fun _ _ => ih.ite (own_throw _)

end Script

section

variable {cfg : Config} {program : Block Nat}

/-- Expressions keep to own values: a literal is own, a name means what the stack binds, operators
give no functions, and a call gives what the body returns. -/
theorem Expr.own_script (e : Expr) : Script.Own program (Value.Own program) (e.script cfg) := by
  cases e with
  | none => exact Script.own_pure .none
  | bool b => exact Script.own_pure (.bool b)
  | int n => exact Script.own_pure (.int n)
  | name id => exact Script.own_ofStep fun m hm => ⟨hm, fun v hv => hm.of_resolve hv⟩
  | unary op e =>
    cases op with
    | not => exact (Script.own_eval e).bind fun _ _ => Script.own_pure (.bool _)
    | neg | pos | bitNot | star => exact Script.own_throw _
  | binary op a b =>
    simp only [Expr.script]
    cases hmeaning : op.meaning? cfg.truthiness with
    | none => exact Script.own_throw _
    | some meaning =>
      refine (Script.own_eval a).bind fun x _ => (Script.own_eval b).bind fun y _ => ?_
      refine Script.own_ofExcept fun v hv => ?_
      exact Value.own_of_kind (BinaryOp.kind_of_meaning? hmeaning hv)
  | ternary body condition orelse =>
    exact (Script.own_eval condition).bind fun _ _ =>
      (Script.own_eval body).ite (Script.own_eval orelse)
  | call callee args =>
    refine (Script.own_eval callee).bind fun v hv => ?_
    have hfunction : Script.Own program (· ∈ Stmt.defsAll program)
        (Script.ofStep (EvalM.ofExcept v.asFunction)) :=
      Script.own_ofExcept fun d hd => hv.mem_defsAll hd
    refine hfunction.bind fun d hd => Script.Own.ite ?_ (Script.own_throw _)
    exact ((Script.own_evalEach args).bind fun values hvalues =>
      Script.own_call hd hvalues).ifAllowed

/-! ### Statements -/

/-- Statements of the program keep to own values: a definition binds a function that occurs in the
program. -/
theorem Stmt.own_script {s : Stmt Nat} (h : s.defs ⊆ Stmt.defsAll program) :
    Script.Own program (fun _ => True) (s.script cfg) := by
  cases s with
  | assign target hint value =>
    cases value with
    | none => exact Script.own_pure trivial
    | some e =>
      exact (Script.own_eval e).bind fun v hv =>
        (Script.own_define target hv).bind fun _ _ => Script.own_pure trivial
  | assert es => exact (Script.own_assertEach es).bind fun _ _ => Script.own_pure trivial
  | cond condition body orelse =>
    cases orelse with
    | none =>
      exact (Script.own_eval condition).bind fun _ _ =>
        (Script.own_execAll h).ite (Script.own_pure trivial)
    | some orelse =>
      rw [Stmt.defs, List.append_subset] at h
      exact (Script.own_eval condition).bind fun _ _ =>
        (Script.own_execAll h.1).ite (Script.own_execAll h.2)
  | ret value =>
    have hpost : ∀ v : Value, v.Own program → Script.Own program (fun _ => True) (do
        Script.ofStep (EvalM.push (.ret v))
        return true) :=
      fun v hv => (Script.own_post hv).bind fun _ _ => Script.own_pure trivial
    cases value with
    | none =>
      have hnone : Script.Own program (Value.Own program) (pure .none) := Script.own_pure .none
      exact hnone.bind hpost
    | some e => exact (Script.own_eval e).bind hpost
  | funcDef tag name params body =>
    have hd : (⟨tag, name, params, body⟩ : FuncDef Nat) ∈ Stmt.defsAll program :=
      h List.mem_cons_self
    exact (Script.own_define name (.function hd)).bind fun _ _ => Script.own_pure trivial
  | simple stmts => exact Script.own_execAll h
  | expr e => exact (Script.own_eval e).bind fun _ _ => Script.own_pure trivial
  | pass => exact Script.own_pure trivial

/-- Several statements of the program keep to own values. -/
theorem Script.own_execEach {ss : List (Stmt Nat)} (h : Stmt.defsAll ss ⊆ Stmt.defsAll program) :
    Script.Own program (fun _ => True) (Script.execEach ss) := by
  induction ss with
  | nil => exact Script.own_pure trivial
  | cons s ss ih =>
    rw [Stmt.defsAll, List.append_subset] at h
    exact (Script.own_start (t := .exec s) h.1).bind fun _ _ =>
      (Script.own_pure trivial).ite (ih h.2)

/-- What a call takes off the stack is own. -/
theorem Script.own_collect : Script.Own program (Value.Own program) Script.collect := by
  refine Script.own_pop.bind fun frame hframe => ?_
  cases frame with
  | scope => exact Script.own_throw _
  | ret value =>
    refine Script.own_pop.bind fun below _ => ?_
    cases below with
    | scope => exact Script.own_pure hframe
    | ret => exact Script.own_throw _

/-- The body of a function of the program keeps to own values: what it defines, the program
defines. -/
theorem FuncDef.own_script {d : FuncDef Nat} (h : d ∈ Stmt.defsAll program) :
    Script.Own program (Value.Own program) d.script := by
  refine (Script.own_execAll (Stmt.defsAll_subset program h)).bind fun returned _ => ?_
  -- A body that has posted no return is ended with one of `None`.
  refine Script.Own.ite ((Script.own_post .none).bind fun _ _ => ?_) ?_
  · exact Script.own_collect
  · exact Script.own_collect

/-- The script of a task about the program keeps to own values. -/
theorem Task.own_script {t : Task} (h : t.Own program) :
    Script.Own program (t.Gives program) (t.script cfg) := by
  cases t with
  | eval e => exact e.own_script
  | runBody d => exact FuncDef.own_script h
  | exec s => exact Stmt.own_script h
  | execAll ss => exact Script.own_execEach h
  | program b =>
    exact (Script.own_execAll h).bind fun _ _ =>
      (Script.own_pop.bind fun _ _ => Script.own_throw _).ite (Script.own_pure trivial)

end

/-! ### Runs -/

namespace Course

variable {cfg : Config} {program : Block Nat} {α : Type} {Q : α → Prop}

/-- A course that keeps to own values ends with them. -/
theorem Own.of_ends {c : Course α} {o : Outcome α} (h : c.Ends cfg o) (hc : c.Own program Q) :
    Outcome.Own program Q o := by
  induction h with
  | ended => exact hc
  | moved m _ ih => exact ih hc.2
  | started _ _ ihtask ihnext =>
    obtain ⟨⟨hm, ht⟩, hnext⟩ := hc
    -- The task is about the program, so its own script keeps to own values up to its end.
    exact ihnext (hnext _ (ihtask (Task.own_script ht _ hm)))

/-- A course that keeps to own values comes to own values and hands on tasks about the program. -/
theorem Own.of_reaches {c : Course α} {m : Machine} {t? : Option Task}
    (h : c.Reaches cfg m t?) (hc : c.Own program Q) :
    m.Own program ∧ ∀ t ∈ t?, t.Own program := by
  induction h with
  | moved => exact ⟨hc.1, by simp⟩
  | started => exact ⟨hc.1.1, fun t ht => Option.some.inj ht ▸ hc.1.2⟩
  | afterMove _ _ ih => exact ih hc.2
  | afterTask hanswer _ ih =>
    obtain ⟨⟨hm, ht⟩, hnext⟩ := hc
    exact ih (hnext _ (Own.of_ends hanswer (Task.own_script ht _ hm)))

end Course

namespace Invocation

variable {cfg : Config} {program : Block Nat} {i j : Invocation}

/-- A run of a task about the program, on a machine with own values. -/
structure Own (program : Block Nat) (i : Invocation) : Prop where
  /-- The task is about the program. -/
  task : i.task.Own program
  /-- The values of the machine are own. -/
  machine : i.machine.Own program

/-- A run with own values starts every run with own values. -/
theorem Starts.own (h : i.Starts cfg j) (hi : i.Own program) : j.Own program := by
  obtain ⟨hmachine, htask⟩ := Course.Own.of_reaches h (Task.own_script hi.task _ hi.machine)
  exact ⟨htask j.task rfl, hmachine⟩

/-- Every run inside a run with own values starts with own values. -/
theorem Within.own (h : i.Within cfg j) (hi : i.Own program) : j.Own program := by
  induction h with
  | refl => exact hi
  | tail _ hstarts ih => exact hstarts.own ih

/-- A run that starts with own values gives an own value and leaves own values. -/
theorem Own.outcome (hi : i.Own program) (cfg : Config) :
    Outcome.Own program (i.task.Gives program) (i.task.perform cfg i.machine) := by
  have hends : (i.task.script cfg i.machine).Ends cfg (i.task.perform cfg i.machine) :=
    Task.ends_iff.2 rfl
  exact Course.Own.of_ends hends (Task.own_script hi.task _ hi.machine)

end Invocation

end ScopeScript
