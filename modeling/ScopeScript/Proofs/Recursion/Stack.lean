import ScopeScript.Proofs.Recursion.Nested

/-!
# The stack during a run

The frames of a run that starts with no call in progress: every run inside it starts with one scope
for each call in progress above the frames that were there, and no pending return is among them. Of
the frames that were there, the top one may have names rebound and the others are untouched. So the
limit on the calls in progress is also a limit on the height of the stack.

* `Machine.Stands`: the frames of a machine, by the calls in progress and the frames at the start.

Main statements:

* `Invocation.Starts.stands`: a run that starts with such frames starts every run with such frames.
* `Invocation.Within.stands`: so does every run inside a run.
-/

namespace ScopeScript

/-- The frames of a machine on which a run starts, where `base` are the frames with which everything
started. -/
structure Machine.Stands (limit : Nat) (base : Environment) (m : Machine) : Prop where
  /-- There is one frame for each call in progress above those at the start. -/
  depth_eq : m.env.depth = base.depth + m.callDepth
  /-- The frames of the calls in progress are scopes. -/
  scopes : ∀ frame ∈ m.env.frames.take m.callDepth, ∃ bindings, frame = .scope bindings
  /-- Below the top one, the frames at the start are unchanged. -/
  below : m.env.frames.drop (m.callDepth + 1) = base.frames.drop 1
  /-- No more calls are in progress than allowed. -/
  allowed : m.callDepth ≤ limit

namespace Machine.Stands

variable {limit : Nat} {base : Environment} {m : Machine}

/-- At the start no call is in progress. -/
theorem start (limit : Nat) (base : Environment) : Stands limit base ⟨base, 0⟩ where
  depth_eq := rfl
  scopes frame hframe := by simp at hframe
  below := rfl
  allowed := Nat.zero_le limit

/-- Names rebound on top. -/
theorem rebinds (h : m.Stands limit base) {names : List String} {env : Environment}
    (henv : m.env.Rebinds names env) : Stands limit base { m with env } := by
  obtain ⟨env₀, callDepth⟩ := m
  cases henv with
  | same => exact h
  | @top b b' rest hb =>
    refine ⟨h.depth_eq, fun frame hframe => ?_, h.below, h.allowed⟩
    cases callDepth with
    | zero => simp at hframe
    | succ n =>
      -- The frame on top is that of the innermost call, and a scope before and after.
      rcases List.mem_cons.1 hframe with rfl | hframe
      · exact ⟨b', rfl⟩
      · exact h.scopes frame (List.mem_cons_of_mem _ hframe)

/-- The scope of one more call. -/
theorem entry (h : m.Stands limit base) (hallowed : m.callDepth < limit) (d : FuncDef Nat)
    (values : List Value) : (d.entry values m).Stands limit base where
  depth_eq := by
    show m.env.depth + 1 = base.depth + (m.callDepth + 1)
    rw [h.depth_eq, Nat.add_assoc]
  scopes frame hframe := by
    rcases List.mem_cons.1 hframe with rfl | hframe
    · exact ⟨_, rfl⟩
    · exact h.scopes frame hframe
  below := h.below
  allowed := hallowed

/-- The limit bounds the height of the stack. -/
theorem depth_le (h : m.Stands limit base) : m.env.depth ≤ base.depth + limit := by
  rw [h.depth_eq]
  exact Nat.add_le_add_left h.allowed _

end Machine.Stands

namespace Invocation

variable {cfg : Config} {base : Environment} {i j : Invocation}

/-- A run with its frames in place starts every run with its frames in place. -/
theorem Starts.stands (h : i.Starts cfg j) (hi : i.machine.Stands cfg.maxCallDepth base) :
    j.machine.Stands cfg.maxCallDepth base := by
  obtain ⟨t', m'⟩ := j
  have hleads : i.task.Leads cfg i.machine m' (some t') := Task.leads_of_reaches h
  cases hleads with
  | part henv _ _ => exact hi.rebinds henv
  | body d values hallowed => exact hi.entry hallowed d values

/-- Every run inside a run with its frames in place has its frames in place. -/
theorem Within.stands (h : i.Within cfg j) (hi : i.machine.Stands cfg.maxCallDepth base) :
    j.machine.Stands cfg.maxCallDepth base := by
  induction h with
  | refl => exact hi
  | tail _ hstarts ih => exact hstarts.stands ih

/-- While a run goes on whose frames are in place, there is at most one frame more than calls may be
in progress, and no more calls are in progress than allowed. -/
theorem bounded_of_reaches {m' : Machine} {t? : Option Task}
    (h : (i.task.script cfg i.machine).Reaches cfg m' t?)
    (hi : i.machine.Stands cfg.maxCallDepth base) :
    m'.env.depth ≤ base.depth + cfg.maxCallDepth + 1 ∧ m'.callDepth ≤ cfg.maxCallDepth := by
  have hstart := hi.depth_le
  have hallowed := hi.allowed
  cases Task.leads_of_reaches h with
  | part henv _ _ => exact ⟨Nat.le_succ_of_le (hi.rebinds henv).depth_le, hallowed⟩
  | body d values hlt =>
    exact ⟨Nat.le_succ_of_le (hi.entry hlt d values).depth_le, hlt⟩
  | between hdepth hcalls =>
    refine ⟨Nat.le_trans hdepth (Nat.succ_le_succ hstart), ?_⟩
    rcases hcalls with hsame | ⟨hlt, hmore⟩
    · exact hsame ▸ hallowed
    · exact hmore ▸ hlt

end Invocation

namespace Evaluator

/-- The frames during a run that starts with no call in progress. Every run inside it starts with
one scope for each call in progress above the frames at the start, of which all but the top one are
unchanged. As long as it goes on, there are at most as many frames as at the start, one for each
call that may be in progress, and one more; and the number of calls in progress stays within the
limit, also where it has just grown, so that a counter for numbers up to the limit does not
overflow. -/
theorem frames_during_run {cfg : Config} {env : Environment} {t : Task} {j : Invocation}
    (h : Invocation.Within cfg ⟨t, ⟨env, 0⟩⟩ j) :
    j.machine.Stands cfg.maxCallDepth env ∧
      ∀ m t?, (j.task.script cfg j.machine).Reaches cfg m t? →
        m.env.depth ≤ env.depth + cfg.maxCallDepth + 1 ∧ m.callDepth ≤ cfg.maxCallDepth := by
  have hj : j.machine.Stands cfg.maxCallDepth env := h.stands (.start cfg.maxCallDepth env)
  exact ⟨hj, fun m t? hreach => Invocation.bounded_of_reaches hreach hj⟩

/-- The last statement of a called function, run after the function has bound a name of the module
in the scope of its call. -/
theorem frames_during_run_of_return :
    let ret : Stmt Nat := .ret (some (.name "x"))
    let f : FuncDef Nat := ⟨0, "f", ["y"], [.assign "x" none (some (.name "y")), ret]⟩
    let names : NameMap Value := (NameMap.empty.insert "f" (.function f)).insert "x" (.int 1)
    let inner : NameMap Value := (NameMap.empty.insert "y" (.int 5)).insert "x" (.int 5)
    let j : Invocation := ⟨.exec ret, ⟨⟨[.scope inner, .scope names]⟩, 1⟩⟩
    Invocation.Within {} ⟨.eval (.call (.name "f") [.int 5]), ⟨⟨[.scope names]⟩, 0⟩⟩ j ∧
      j.machine.Stands 1000 ⟨[.scope names]⟩ ∧
      ∀ m t?, (j.task.script {} j.machine).Reaches {} m t? → m.env.depth ≤ 1002 := by
  intro ret f names inner j
  let start : Machine := ⟨⟨[.scope names]⟩, 0⟩
  let entered : Machine := f.entry [.int 5] start
  have hcallee : ((Task.eval (.name "f")).script {} start).Ends {} (.ok (.function f), start) :=
    Task.ends_iff.2 rfl
  have hargument : ((Task.eval (.int 5)).script {} start).Ends {} (.ok (.int 5), start) :=
    Task.ends_iff.2 rfl
  have hcall : Invocation.Starts {} ⟨.eval (.call (.name "f") [.int 5]), start⟩
      ⟨.runBody f, entered⟩ :=
    .afterTask hcallee (.afterMove _ (.afterTask hargument
      (.afterMove _ (.afterMove _ (.started _ _ _)))))
  have hbody : Invocation.Starts {} ⟨.runBody f, entered⟩ ⟨.execAll f.body, entered⟩ :=
    .started _ _ _
  have hassign : ((Task.exec (.assign "x" none (some (.name "y")))).script {} entered).Ends {}
      (.ok false, j.machine) := Task.ends_iff.2 rfl
  have hret : Invocation.Starts {} ⟨.execAll f.body, entered⟩ j :=
    .afterTask hassign (.started _ _ _)
  have hwithin : Invocation.Within {} ⟨.eval (.call (.name "f") [.int 5]), start⟩ j :=
    ((Relation.ReflTransGen.single hcall).tail hbody).tail hret
  obtain ⟨hstands, hbounded⟩ := frames_during_run hwithin
  exact ⟨hwithin, hstands, fun m t? hreach => (hbounded m t? hreach).1⟩

end Evaluator

end ScopeScript
