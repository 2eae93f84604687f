import ScopeScript.Proofs.Host.Flat

/-!
# Histories of host calls

What a host can do with a loaded program, one operation after another. No operation leaves a trace:
the calls go the way of every call, which takes its frames off the stack again, so that a module has
no memory of its calls.

* `Module.Operation`, `Module.perform`: the operations and their answers.
* `Module.performAll`, `Module.answers`: the module after a sequence of operations, and what they
  are answered.

Throughout, `describe` stands for what the decoder of JSON says of a text that it refuses. It may be
any function of the text.

Main statements:

* `Module.exists_bindings_of_load`: a loaded program leaves one scope and no call in progress.
* `Module.perform_snd`: an operation leaves the module as it was, whatever its answer.
-/

namespace ScopeScript

namespace Module

/-- What a host asks of a module. -/
inductive Operation where
  /-- A call with plain arguments. -/
  | call (name : String) (args : List HostValue)
  /-- A call with the arguments as the text of a JSON array. -/
  | callJson (name args : String)

/-- What a host gets for an operation that succeeds. -/
inductive Answer where
  /-- A plain result. -/
  | plain (value : HostValue)
  /-- A result as JSON text. -/
  | json (text : String)
  deriving DecidableEq

/-- The answer to an operation, and the module after it. -/
def perform (m : Module) (describe : String → String) : Operation → Except EvalError Answer × Module
  | .call name args =>
    let (result, m') := m.call name args
    (result.map .plain, m')
  | .callJson name args =>
    let (result, m') := m.callJson describe name args
    (result.map .json, m')

/-- The module after several operations, one after the other. -/
def performAll (m : Module) (describe : String → String) (history : List Operation) : Module :=
  history.foldl (fun m op => (m.perform describe op).2) m

/-- The answers to several operations, each asked of the module that the one before left. -/
def answers (m : Module) (describe : String → String) :
    List Operation → List (Except EvalError Answer)
  | [] => []
  | op :: history =>
    (m.perform describe op).1 :: answers (m.perform describe op).2 describe history

/-! ### Loading -/

/-- A program that runs without a return and without an error leaves one scope on the stack and no
call in progress. -/
theorem exists_bindings_of_load {program : Block Nat} {config : Config} {m : Module}
    (h : load program config = .ok m) :
    ∃ b : NameMap Value, m = ⟨{ env := ⟨[.scope b]⟩, callDepth := 0, config }⟩ := by
  rw [load_eq] at h
  generalize Flat.execAll config 0 .empty program = outcome at h
  -- A return at the top level or a failure would not have loaded.
  cases outcome with
  | error e => cases h
  | ok flow =>
    cases flow with
    | next names => exact ⟨names, (Except.ok.inj h).symm⟩
    | returned v => cases h

/-- The bindings of a module on one scope are those of the scope. -/
theorem bindings_mk (b : NameMap Value) (callDepth : Nat) (config : Config) :
    bindings ⟨{ env := ⟨[.scope b]⟩, callDepth, config }⟩ = b := rfl

/-! ### Operations -/

/-- A call leaves the module as it was. -/
theorem call_snd (m : Module) (name : String) (args : List HostValue) :
    (m.call name args).2 = m := by
  have hread : EvalM.Reads ((Expr.call (.name name) (args.map HostValue.toExpr)).eval
      m.evaluator.config (Caller.atDepth m.evaluator.config m.evaluator.callDepth)) :=
    Expr.reads_eval (Caller.reads_atDepth m.evaluator.config m.evaluator.callDepth) _
  rw [call]
  split
  · rfl
  · rw [Evaluator.evaluate, Evaluator.run, hread.eq]
  · rfl

variable (describe : String → String)

/-- A call through JSON leaves the module as it was. -/
theorem callJson_snd (m : Module) (name args : String) :
    (m.callJson describe name args).2 = m := by
  rw [callJson]
  split
  · rfl
  · exact call_snd m name _

/-- An operation leaves the module as it was, whether it succeeds or fails. -/
theorem perform_snd (m : Module) (op : Operation) : (m.perform describe op).2 = m := by
  cases op with
  | call name args => exact call_snd m name args
  | callJson name args => exact callJson_snd describe m name args

/-- Any sequence of operations leaves the module as it was. -/
theorem performAll_eq (m : Module) (history : List Operation) :
    m.performAll describe history = m := by
  induction history generalizing m with
  | nil => rfl
  | cons op history ih =>
    show ((m.perform describe op).2).performAll describe history = m
    rw [perform_snd, ih]

/-- Several operations are answered as each of them is at first. -/
theorem answers_eq_map (m : Module) (history : List Operation) :
    m.answers describe history = history.map fun op => (m.perform describe op).1 := by
  induction history generalizing m with
  | nil => rfl
  | cons op history ih => rw [answers, perform_snd, ih, List.map_cons]

/-- A loaded module has no memory of its calls: after any sequence of operations its stack is still
one scope with the bindings that loading left, and every further operation is answered as by the
freshly loaded module. -/
theorem perform_after_history {program : Block Nat} {config : Config} {m : Module}
    (h : load program config = .ok m) (history : List Operation) :
    m.evaluator.env = ⟨[.scope m.bindings]⟩ ∧
      (m.performAll describe history).evaluator.env = ⟨[.scope m.bindings]⟩ ∧
      ∀ op : Operation,
        ((m.performAll describe history).perform describe op).1 = (m.perform describe op).1 := by
  obtain ⟨b, rfl⟩ := exists_bindings_of_load h
  -- The module after the history is the loaded one, so every operation is answered alike.
  rw [performAll_eq, bindings_mk]
  exact ⟨rfl, rfl, fun _ => rfl⟩

/-- A call that rebinds a function in its own scope and is cut off by the limit, a call of a name
that is not bound, and arguments that cannot be decoded leave no trace. -/
theorem perform_after_failed_calls :
    let program : Block Nat :=
      [.funcDef 0 "inc" ["x"] [.ret (some (.binary .add (.name "x") (.int 1)))],
       .funcDef 1 "loop" ["f"]
        [.assign "inc" none (some (.name "f")), .expr (.call (.name "loop") [.name "inc"])]]
    let history : List Operation :=
      [.callJson "loop" "[\"inc\"]", .call "absent" [], .callJson "inc" "[1"]
    let describe : String → String := fun _ => "EOF while parsing a list at line 1 column 2"
    ∃ m, load program { maxCallDepth := 5 } = .ok m ∧
      m.answers describe history =
        [.error (.callDepthExceeded 5), .error (.nameNotFound "absent"),
          .error (.hostArguments "EOF while parsing a list at line 1 column 2")] ∧
      (m.performAll describe history).evaluator.env.depth = 1 ∧
      ((m.performAll describe history).perform describe (.call "inc" [.int 41])).1 =
        .ok (.plain (.int 42)) := by
  intro program history describe
  obtain ⟨m, hm⟩ : ∃ m, load program { maxCallDepth := 5 } = .ok m := ⟨_, rfl⟩
  obtain ⟨-, henv, hop⟩ := perform_after_history describe hm history
  refine ⟨m, hm, ?_, ?_, ?_⟩
  · obtain rfl := (Except.ok.inj hm).symm
    rfl
  · rw [henv]
    rfl
  · rw [hop]
    obtain rfl := (Except.ok.inj hm).symm
    rfl

end Module

end ScopeScript
