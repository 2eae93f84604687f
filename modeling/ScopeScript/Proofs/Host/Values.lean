import ScopeScript.Proofs.Host.History
import ScopeScript.Proofs.Recursion.Values

/-!
# The values that a host can come upon

Loading a program and calling its functions make no other values than the program's own, whatever
arguments the host passes: these are literals and names, and the only functions to be had by a name
are those that the program binds. So a result without a plain form never arises, and a host that
gets nothing back knows that the function returned `None`.

* `Module.loading`, `Module.calling`: the runs that a host starts.

Main statement:

* `Module.values_are_own`: the values of a loaded module, at rest and during every run, are own.
-/

namespace ScopeScript

/-! ### Results for the host -/

/-- Of the own values, `None` alone is nothing to the host. -/
theorem Value.Own.toHost_eq_none_iff {program : Block Nat} {v : Value} (h : v.Own program) :
    v.toHost = .none ↔ v = .none := by
  cases h <;> simp [toHost]

/-- No integer is written as `null`. -/
theorem decimal_ne_null (z : Int) : Text.decimal z ≠ "null" := by
  intro h
  have hn : 'n' ∈ (Text.decimal z).toList := by
    rw [h]
    decide
  have hdigit : ∀ k, 'n' ∉ Text.digits k :=
    fun k hk => absurd (Text.isDigit_of_mem_digits hk) (by decide)
  cases z with
  | ofNat k => exact hdigit k (by simpa [Text.decimal] using hn)
  | negSucc k => exact hdigit (k + 1) (by simpa [Text.decimal] using hn)

/-- Nothing else than nothing is written as `null`. -/
theorem HostValue.encode_eq_null_iff {r : HostValue} : r.encode = "null" ↔ r = none := by
  cases r with
  | none => simp [encode]
  | bool b => cases b <;> simp [encode]
  | int n => simp [encode, decimal_ne_null]
  | function name =>
    have hquote : Json.quote name ≠ "null" := by
      intro h
      have hhead := congrArg (fun s : String => s.toList.head?) h
      simp [Json.quote] at hhead
    simp [encode, hquote]

namespace Module

/-! ### The runs that a host starts -/

/-- The run that loads a program. -/
def loading (program : Block Nat) : Invocation :=
  ⟨.program program, {}⟩

/-- The run in which a module calls a function by name. -/
def calling (m : Module) (name : String) (args : List HostValue) : Invocation :=
  ⟨.eval (.call (.name name) (args.map HostValue.toExpr)), m.evaluator.toMachine⟩

variable {program : Block Nat} {config : Config} {m : Module} {describe : String → String}

/-- A program is about itself, and at the start there is no value. -/
theorem own_loading (program : Block Nat) : (loading program).Own program where
  task := List.Subset.refl _
  machine := Environment.All.initial

/-- The module is what the run that loads the program leaves. -/
theorem evaluator_of_load (h : load program config = .ok m) :
    m.evaluator = ⟨((Task.program program).perform config {}).2, config⟩ := by
  unfold load at h
  split at h
  · next evaluator hrun =>
    obtain rfl := Except.ok.inj h
    exact (congrArg Prod.snd hrun).symm
  · cases h

/-- The values of a loaded module are own. -/
theorem own_of_load (h : load program config = .ok m) :
    m.evaluator.toMachine.Own program := by
  rw [evaluator_of_load h]
  exact ((own_loading program).outcome config).1

/-- A call is about no definitions but those of the values that the module holds. -/
theorem own_calling (h : load program config = .ok m) (name : String) (args : List HostValue) :
    (m.calling name args).Own program where
  task := trivial
  machine := own_of_load h

/-- The values that a loaded module binds are own. -/
theorem own_of_get? (h : load program config = .ok m) {name : String} {v : Value}
    (hv : m.get? name = some v) : v.Own program := by
  have hm := own_of_load h
  obtain ⟨b, rfl⟩ := exists_bindings_of_load h
  exact hm (.scope b) List.mem_cons_self name v hv

/-- The runs that a host starts are about the program's own definitions and values. -/
theorem own_of_started (h : load program config = .ok m) {i : Invocation}
    (hi : i = loading program ∨ ∃ name args, i = m.calling name args) : i.Own program := by
  rcases hi with rfl | ⟨name, args, rfl⟩
  · exact own_loading program
  · exact own_calling h name args

/-! ### What a host gets -/

/-- The value that a call comes to, before the host gets it. -/
def value (m : Module) (name : String) (args : List HostValue) : Except EvalError Value :=
  (m.evaluator.evaluate (.call (.name name) (args.map HostValue.toExpr))).1

/-- What a call of a loaded module comes to is own. -/
theorem own_of_value (h : load program config = .ok m) {name : String} {args : List HostValue}
    {v : Value} (hv : m.value name args = .ok v) : v.Own program := by
  have houtcome := (own_calling h name args).outcome m.evaluator.config
  exact houtcome.2 v hv

/-- A call that succeeds gives the host what the call comes to. -/
theorem exists_value_of_call {name : String} {args : List HostValue} {r : HostValue}
    (h : (m.call name args).1 = .ok r) : ∃ v, m.value name args = .ok v ∧ r = v.toHost := by
  unfold call at h
  split at h
  · cases h
  · rw [value]
    dsimp only at h
    cases hvalue : (m.evaluator.evaluate (.call (.name name) (args.map HostValue.toExpr))).1 with
    | error e =>
      rw [hvalue] at h
      cases h
    | ok v =>
      rw [hvalue] at h
      exact ⟨v, rfl, (Except.ok.inj h).symm⟩
  · cases h

/-- A call through JSON that succeeds gives the host what the call comes to, as text. -/
theorem exists_value_of_callJson {name text r : String}
    (h : (m.callJson describe name text).1 = .ok r) :
    ∃ args v, HostValue.decodeAll? text = some args ∧ m.value name args = .ok v ∧
      r = v.toHost.encode := by
  unfold callJson at h
  split at h
  · cases h
  · next args hargs =>
    dsimp only at h
    cases hcall : (m.call name args).1 with
    | error e =>
      rw [hcall] at h
      cases h
    | ok result =>
      rw [hcall] at h
      obtain ⟨v, hv, rfl⟩ := exists_value_of_call hcall
      exact ⟨args, v, hargs, hv, (Except.ok.inj h).symm⟩

/-- The values of a loaded module are the program's own, after any sequence of host calls: those
that the module binds; in every run that loading or a call comes to start, those on the stack, at
its start and at every machine that it comes to, and the value of every expression; and the value
that a host gets, which is therefore nothing only if the value is `None`. -/
theorem values_are_own (h : load program config = .ok m) (describe : String → String)
    (history : List Operation) :
    let m' := m.performAll describe history
    (∀ name v, m'.get? name = some v → v.Own program) ∧
    (∀ i, (i = loading program ∨ ∃ name args, i = m'.calling name args) →
      ∀ j, i.Within config j → j.machine.Own program ∧
        (∀ machine t?, (j.task.script config j.machine).Reaches config machine t? →
          machine.Own program) ∧
        ∀ e v, j.task = .eval e → (Evaluator.evaluate ⟨j.machine, config⟩ e).1 = .ok v →
          v.Own program) ∧
    (∀ name args r, (m'.call name args).1 = .ok r → ∃ v, m'.value name args = .ok v ∧
      v.Own program ∧ r = v.toHost ∧ (r = .none ↔ v = .none)) ∧
    ∀ name text r, (m'.callJson describe name text).1 = .ok r →
      ∃ args v, HostValue.decodeAll? text = some args ∧ m'.value name args = .ok v ∧
        v.Own program ∧ r = v.toHost.encode ∧ (r = "null" ↔ v = .none) := by
  rw [performAll_eq]
  dsimp only
  refine ⟨fun name v hv => own_of_get? h hv, fun i hi j hj => ?_, fun name args r hr => ?_,
    fun name text r hr => ?_⟩
  · have hown := hj.own (own_of_started h hi)
    obtain ⟨task, machine⟩ := j
    refine ⟨hown.machine, fun machine' t? hreach => ?_, fun e v he hv => ?_⟩
    · exact (Course.Own.of_reaches hreach (Task.own_script hown.task _ hown.machine)).1
    · obtain rfl : task = .eval e := he
      exact (hown.outcome config).2 v hv
  · obtain ⟨v, hv, rfl⟩ := exists_value_of_call hr
    have hown := own_of_value h hv
    exact ⟨v, hv, hown, rfl, hown.toHost_eq_none_iff⟩
  · obtain ⟨args, v, hargs, hv, rfl⟩ := exists_value_of_callJson hr
    have hown := own_of_value h hv
    exact ⟨args, v, hargs, hv, hown, rfl,
      HostValue.encode_eq_null_iff.trans hown.toHost_eq_none_iff⟩

/-- A function that another defines while it runs and returns is the program's own, although the
module binds no name to it, and a host that gets nothing from a function without a return knows that
it gave `None`. -/
theorem values_are_own_of_nested_definition :
    let inner : FuncDef Nat := ⟨1, "inner", [], [.ret (some (.name "x"))]⟩
    let program : Block Nat :=
      [.funcDef 0 "make" ["x"]
        [.funcDef 1 "inner" [] [.ret (some (.name "x"))], .ret (some (.name "inner"))],
       .funcDef 2 "nothing" [] [.pass]]
    let history : List Operation := [.call "make" [.int 1], .callJson "make" "[null"]
    let describe : String → String := fun _ => "EOF while parsing a list at line 1 column 5"
    ∃ m, load program {} = .ok m ∧ (m.performAll describe history).get? "inner" = none ∧
      (m.performAll describe history).value "make" [.int 1] = .ok (.function inner) ∧
      (Value.function inner).Own program ∧
      ((m.performAll describe history).callJson describe "nothing" "[]").1 = .ok "null" ∧
      (m.performAll describe history).value "nothing" [] = .ok .none := by
  intro inner program history describe
  obtain ⟨m, hm⟩ : ∃ m, load program {} = .ok m := ⟨_, rfl⟩
  obtain ⟨-, -, hcall, hjson⟩ := values_are_own hm describe history
  rw [performAll_eq] at hcall hjson
  obtain rfl := (Except.ok.inj hm).symm
  obtain ⟨v, hv, hown, -, -⟩ := hcall "make" [.int 1] (.function "inner") (by rfl)
  obtain ⟨args, w, hargs, hw, -, -, hnull⟩ := hjson "nothing" "[]" "null" (by rfl)
  obtain rfl : w = .none := hnull.1 rfl
  obtain rfl : args = [] := (Option.some.inj hargs).symm
  obtain rfl : v = .function inner := (Except.ok.inj hv).symm
  refine ⟨_, rfl, ?_⟩
  rw [performAll_eq]
  exact ⟨rfl, hv, hown, rfl, hw⟩

end Module

end ScopeScript
