import Mathlib.Logic.ExistsUnique
import ScopeScript.Proofs.Recursion.Nested

/-!
# Termination

Evaluation terminates although the bodies that it runs are found in the frames and may call
themselves. Each run that another starts is about less: the body of a function is run with fewer
calls left to start, and everything else is a part of the syntax in hand, with as many calls left.
The second holds because every run leaves the number of calls in progress as it found it.

* `Invocation.allowance`: the number of calls that a run may still start within one another.
* `Course.outcome`: what a course comes to if the tasks that it hands on are answered as given.

Main statements:

* `Invocation.Starts.descends`: what decreases from a run to one that it starts.
* `Invocation.wellFounded_starts`: no run starts runs within one another forever.
-/

namespace ScopeScript

namespace Invocation

variable {cfg : Config} {i j : Invocation}

/-- The number of calls that the settings leave to a run. -/
def allowance (cfg : Config) (i : Invocation) : Nat :=
  cfg.maxCallDepth - i.machine.callDepth

/-- A run of a body has fewer calls left than the run that starts it. Every other run that a run
starts is about a part of its syntax, with as many calls left. -/
theorem Starts.descends (h : i.Starts cfg j) :
    (j.task.IsBody → j.allowance cfg < i.allowance cfg) ∧
      (¬ j.task.IsBody → j.allowance cfg = i.allowance cfg ∧ j.task.size < i.task.size) := by
  obtain ⟨t', m'⟩ := j
  have hleads : i.task.Leads cfg i.machine m' (some t') := Task.leads_of_reaches h
  cases hleads with
  | part _ hpart hsize => exact ⟨fun hbody => absurd hbody hpart, fun _ => ⟨rfl, hsize⟩⟩
  | body d values hallowed =>
    refine ⟨fun _ => ?_, fun hpart => absurd trivial hpart⟩
    show cfg.maxCallDepth - (i.machine.callDepth + 1) < cfg.maxCallDepth - i.machine.callDepth
    omega

/-- No run starts runs within one another forever. -/
theorem wellFounded_starts (cfg : Config) : WellFounded fun j i : Invocation => i.Starts cfg j := by
  refine Subrelation.wf (fun {j i} h => ?_) (InvImage.wf
    (fun i : Invocation => (i.allowance cfg, i.task.size)) (Prod.lex Nat.lt_wfRel Nat.lt_wfRel).wf)
  by_cases hbody : j.task.IsBody
  · exact Prod.Lex.left _ _ (h.descends.1 hbody)
  · obtain ⟨hallowance, hsize⟩ := h.descends.2 hbody
    show Prod.Lex _ _ (j.allowance cfg, j.task.size) (i.allowance cfg, i.task.size)
    rw [hallowance]
    exact Prod.Lex.right _ hsize

end Invocation

/-! ### The recursion as equations -/

namespace Course

variable {cfg : Config} {α : Type}

/-- What a course comes to if the tasks that it hands on are answered as given. -/
def outcome (answer : (t : Task) → EvalM t.Result) : Course α → Outcome α
  | ended o => o
  | moved _ rest => rest.outcome answer
  | started t m next => (next (answer t m)).outcome answer

/-- Answers that are what the scripts come to with these answers are the outcomes of the runs. -/
theorem Ends.outcome_eq {answer : (t : Task) → EvalM t.Result}
    (hanswer : ∀ t m, answer t m = (t.script cfg m).outcome answer) {c : Course α} {o : Outcome α}
    (h : c.Ends cfg o) : c.outcome answer = o := by
  induction h with
  | ended => rfl
  | moved _ _ ih => exact ih
  | @started _ t m next _ _ _ _ ihtask ihnext =>
    have htask : answer t m = _ := (hanswer t m).trans ihtask
    show (next (answer t m)).outcome answer = _
    rw [htask]
    exact ihnext

/-- The answers of evaluation lead a course to its outcome. -/
theorem Ends.outcome_perform {c : Course α} {o : Outcome α} (h : c.Ends cfg o) :
    c.outcome (Task.perform cfg) = o := by
  induction h with
  | ended => rfl
  | moved _ _ ih => exact ih
  | @started _ t m next _ _ htask _ _ ihnext =>
    obtain rfl := Task.ends_iff.1 htask
    exact ihnext

end Course

namespace Evaluator

/-- Evaluation terminates, whatever the settings and whatever functions the stack holds.

No run starts runs within one another forever: the body of a function is run with fewer calls left,
and everything else is smaller syntax with as many calls left. So the scripts determine evaluation
without any fuel: exactly one function answers each task as its script comes to with the function's
own answers. And every run of an expression, a statement, a block or a program ends, by finitely
many runs, with what the evaluator gives. -/
theorem evaluation_terminates (cfg : Config) :
    (WellFounded fun j i : Invocation => i.Starts cfg j) ∧
    (∀ i j : Invocation, i.Starts cfg j →
      (j.task.IsBody → j.allowance cfg < i.allowance cfg) ∧
      (¬ j.task.IsBody → j.allowance cfg = i.allowance cfg ∧ j.task.size < i.task.size)) ∧
    (∃! run : (t : Task) → EvalM t.Result, ∀ t m, run t m = (t.script cfg m).outcome run) ∧
    (∀ (t : Task) (m : Machine), ∃! outcome, (t.script cfg m).Ends cfg outcome) ∧
    ∀ m : Machine, let ev : Evaluator := ⟨m, cfg⟩
      (∀ e, ((Task.eval e).script cfg m).Ends cfg
        ((ev.evaluate e).1, (ev.evaluate e).2.toMachine)) ∧
      (∀ s, ((Task.exec s).script cfg m).Ends cfg
        ((ev.execute s).1, (ev.execute s).2.toMachine)) ∧
      (∀ b, ((Task.execAll b).script cfg m).Ends cfg
        ((ev.executeBlock b).1, (ev.executeBlock b).2.toMachine)) ∧
      ∀ program, ((Task.program program).script cfg m).Ends cfg
        ((ev.executeModule program).1, (ev.executeModule program).2.toMachine) := by
  refine ⟨Invocation.wellFounded_starts cfg, fun i j h => h.descends, ?_, fun t m => ?_,
    fun m => ⟨fun e => Task.ends_iff.2 rfl, fun s => Task.ends_iff.2 rfl,
      fun b => Task.ends_iff.2 rfl, fun program => Task.ends_iff.2 rfl⟩⟩
  · refine ⟨Task.perform cfg, fun t m => ?_, fun run hrun => ?_⟩
    · have hends : (t.script cfg m).Ends cfg (t.perform cfg m) := Task.ends_iff.2 rfl
      exact hends.outcome_perform.symm
    · funext t m
      have hends : (t.script cfg m).Ends cfg (t.perform cfg m) := Task.ends_iff.2 rfl
      exact (hrun t m).trans (hends.outcome_eq hrun)
  · exact ⟨t.perform cfg m, Task.ends_iff.2 rfl, fun outcome h => Task.ends_iff.1 h⟩

/-- Two functions that call each other, under the greatest limit of 64 bits: the run of the one's
body has fewer calls left than the run that calls it, and the whole ends. -/
theorem evaluation_terminates_of_mutual_calls :
    let ping : FuncDef Nat := ⟨0, "ping", [], [.ret (some (.call (.name "pong") []))]⟩
    let pong : FuncDef Nat := ⟨1, "pong", [], [.ret (some (.call (.name "ping") []))]⟩
    let names : NameMap Value :=
      (NameMap.empty.insert "ping" (.function ping)).insert "pong" (.function pong)
    let cfg : Config := { maxCallDepth := UInt64.size - 1 }
    let i : Invocation := ⟨.eval (.call (.name "ping") []), ⟨⟨[.scope names]⟩, 0⟩⟩
    let j : Invocation := ⟨.runBody ping, ping.entry [] i.machine⟩
    i.Starts cfg j ∧ j.allowance cfg < i.allowance cfg ∧
      ∃! outcome, (i.task.script cfg i.machine).Ends cfg outcome := by
  intro ping pong names cfg i j
  obtain ⟨-, hdescends, -, hends, -⟩ := evaluation_terminates cfg
  have hname : ((Task.eval (.name "ping")).script cfg i.machine).Ends cfg
      (.ok (.function ping), i.machine) := Task.ends_iff.2 rfl
  have hstarts : i.Starts cfg j :=
    .afterTask hname (.afterMove _ (.afterMove _ (.afterMove _ (.started _ _ _))))
  exact ⟨hstarts, (hdescends i j hstarts).1 trivial, hends i.task i.machine⟩

end Evaluator

end ScopeScript
