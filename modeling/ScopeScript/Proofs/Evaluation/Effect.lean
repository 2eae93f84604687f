import ScopeScript.Proofs.Evaluation.Frames

/-!
# The effect of statements on the stack

What a run of statements leaves on the stack, frame by frame: those below the top are as they were,
a scope on top has lost no name and has new values for none but the names that the statements bind,
a pending return on top is the same return, and a return posted by the run is one more frame.

* `Frame.Altered`: a frame before and after a run that may have bound given names in it.
* `Environment.Effect`: the stack before and after a run that may have bound given names on top of
  it and posted a return.

Main statement:

* `Evaluator.effect_on_stack`: statements, blocks and whole programs have such an effect, whatever
  their outcome.
-/

namespace ScopeScript

/-- A frame and the one in its place after a run that may have bound `names` in it. -/
inductive Frame.Altered (names : List String) : Frame → Frame → Prop where
  /-- A scope stays a scope. It loses no name, and differs at most in `names`. -/
  | scope {b b' : NameMap Value} (h : b.ChangesOnly names b') : Altered names (.scope b) (.scope b')
  /-- A pending return stays the same. -/
  | ret (value : Value) : Altered names (.ret value) (.ret value)

/-- A frame that stays as it is. -/
protected theorem Frame.Altered.refl {names : List String} (frame : Frame) :
    frame.Altered names frame := by
  cases frame with
  | scope b => exact .scope (.refl b)
  | ret value => exact .ret value

namespace Environment

/-- A stack and the one after a run that may have bound `names` on top of it, and that has posted a
return or not. -/
structure Effect (names : List String) (posted : Prop) (env env' : Environment) : Prop where
  /-- A posted return is the one frame above those that were there. -/
  taller : posted → env'.depth = env.depth + 1 ∧ ∃ value, env'.peek = .ok (.ret value)
  /-- Without a posted return there are as many frames as before. -/
  level : ¬ posted → env'.depth = env.depth
  /-- The frames below the former top frame are unchanged. -/
  below : env'.truncate (env.depth - 1) = env.truncate (env.depth - 1)
  /-- The former top frame is in its place, altered in nothing but what it binds to `names`. -/
  top : ∀ frame, env.peek = .ok frame →
    ∃ frame', (env'.truncate env.depth).peek = .ok frame' ∧ frame.Altered names frame'

/-- Cutting back to the full height changes nothing. -/
@[simp]
theorem truncate_depth (env : Environment) : env.truncate env.depth = env := by
  simp [truncate, depth]

/-- A cut below a frame on top does not see that frame. -/
theorem truncate_push_of_le {env : Environment} {height : Nat} (h : height ≤ env.depth)
    (frame : Frame) : (env.push frame).truncate height = env.truncate height := by
  have hdrop : env.frames.length + 1 - height = env.frames.length - height + 1 :=
    Nat.succ_sub h
  simp only [truncate, push, List.length_cons, hdrop, List.drop_succ_cons]

namespace Rebinds

variable {names : List String} {env env' : Environment}

/-- The frames below the top one stay. -/
theorem below_eq (h : env.Rebinds names env') :
    env'.truncate (env.depth - 1) = env.truncate (env.depth - 1) := by
  cases h with
  | same => rfl
  | @top b b' rest _ =>
    have hcut : ∀ frame : Frame, Environment.truncate ⟨frame :: rest⟩ rest.length = ⟨rest⟩ :=
      fun frame => truncate_push ⟨rest⟩ frame
    show Environment.truncate ⟨.scope b' :: rest⟩ rest.length =
      Environment.truncate ⟨.scope b :: rest⟩ rest.length
    rw [hcut, hcut]

/-- The frame on top is altered at most. -/
theorem peek_altered (h : env.Rebinds names env') {frame : Frame} (hframe : env.peek = .ok frame) :
    ∃ frame', env'.peek = .ok frame' ∧ frame.Altered names frame' := by
  cases h with
  | same => exact ⟨frame, hframe, .refl frame⟩
  | @top b b' rest hb =>
    obtain rfl : Frame.scope b = frame := Except.ok.inj hframe
    exact ⟨.scope b', rfl, .scope hb⟩

/-- A rebinding is the effect of a run that posts no return. -/
theorem effect (h : env.Rebinds names env') {posted : Prop} (hposted : ¬ posted) :
    env.Effect names posted env' where
  taller hp := absurd hp hposted
  level _ := h.depth_eq
  below := h.below_eq
  top frame hframe := by
    rw [← h.depth_eq, truncate_depth]
    exact h.peek_altered hframe

/-- A rebinding with a return above it is the effect of a run that posts one. -/
theorem effect_push (h : env.Rebinds names env') {posted : Prop} (hposted : posted)
    (value : Value) : env.Effect names posted (env'.push (.ret value)) where
  taller _ := ⟨congrArg (· + 1) h.depth_eq, value, rfl⟩
  level hp := absurd hposted hp
  below := by
    have hle : env.depth - 1 ≤ env'.depth := by
      rw [h.depth_eq]
      exact Nat.sub_le _ _
    rw [truncate_push_of_le hle, h.below_eq]
  top frame hframe := by
    rw [← h.depth_eq, truncate_push]
    exact h.peek_altered hframe

end Rebinds

end Environment

/-- A run that settles has the effect on the stack that its outcome tells. -/
theorem Machine.Settled.effect {names : List String} {m : Machine}
    {o : Except EvalError Bool × Machine} (h : m.Settled names o) :
    m.env.Effect names (o.1 = .ok true) o.2.env := by
  cases h with
  | next h => exact h.effect (by simp)
  | posted h value => exact h.effect_push rfl value
  | failed h e => exact h.effect (by simp)

namespace Evaluator

/-- A program rebinds names on top at most: a return that it posts is taken off again. -/
theorem rebinds_moduleStep {cfg : Config} {caller : Caller} (hcaller : caller.Reads)
    (program : Block Nat) (m : Machine) :
    m.env.Rebinds (Stmt.boundAll program) (moduleStep program cfg caller m).2.env := by
  have hsettles : EvalM.Settles (Stmt.boundAll program) (Stmt.execAll cfg caller program) :=
    Stmt.settles_execAll hcaller program (List.Subset.refl _)
  have hm := hsettles m
  rw [moduleStep, EvalM.bind_apply]
  generalize Stmt.execAll cfg caller program m = outcome at hm ⊢
  cases hm with
  | next h => exact h
  | posted h value => exact h
  | failed h e => exact h

/-- The effect of statements, blocks and programs on the stack, whatever their outcome. Exactly a
run that says so has posted a return, as the one frame above; of the frames that were there, only a
scope on top may differ, in what it binds to the names that the statements bind outside the bodies
of functions. A program that posts a return leaves none. -/
theorem effect_on_stack (ev : Evaluator) :
    (∀ s : Stmt Nat, ev.env.Effect s.bound ((ev.execute s).1 = .ok true) (ev.execute s).2.env) ∧
      (∀ b : Block Nat, ev.env.Effect (Stmt.boundAll b) ((ev.executeBlock b).1 = .ok true)
        (ev.executeBlock b).2.env) ∧
      ∀ program : Block Nat,
        ev.env.Effect (Stmt.boundAll program) False (ev.executeModule program).2.env := by
  have hreads : (Caller.atDepth ev.config ev.callDepth).Reads :=
    Caller.reads_atDepth ev.config ev.callDepth
  refine ⟨fun s => ?_, fun b => ?_, fun program => ?_⟩
  · exact (Stmt.settles_exec hreads s (List.Subset.refl _) ev.toMachine).effect
  · exact (Stmt.settles_execAll hreads b (List.Subset.refl _) ev.toMachine).effect
  · exact (rebinds_moduleStep hreads program ev.toMachine).effect id

end Evaluator

end ScopeScript
