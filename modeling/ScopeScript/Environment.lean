import ScopeScript.Evaluation.Error
import ScopeScript.NameMap

/-!
# The frame stack

The environment of a running program is a stack of frames. A scope binds names for the module or for
one call; a pending return holds the result of a call until the caller collects it. A name means
what the topmost scope that binds it says, so that a function sees the names of its callers.

* `lookup?_push_scope`, `lookup?_push_ret`: a scope on top is asked first, a pending return never.
* `truncate_push`: cutting back to the height before a push undoes it.
-/

namespace ScopeScript

/-- One level of the stack. -/
inductive Frame where
  /-- The names bound in the module or in one call. -/
  | scope (bindings : NameMap Value)
  /-- The result of a return that nobody has collected yet. -/
  | ret (value : Value)
  deriving DecidableEq

/-- The value that a frame binds to a name. A pending return binds none. -/
def Frame.get? : Frame → String → Option Value
  | scope bindings, name => bindings.get? name
  | ret _, _ => none

/-- A stack of frames. -/
structure Environment where
  /-- The frames, the top one first. -/
  frames : List Frame
  deriving DecidableEq

namespace Environment

/-- The environment in which a program starts: one scope that binds nothing. -/
def initial : Environment :=
  ⟨[.scope .empty]⟩

instance : Inhabited Environment := ⟨initial⟩

/-- The number of frames. -/
def depth (env : Environment) : Nat :=
  env.frames.length

/-- The stack with one more frame on top. -/
def push (env : Environment) (frame : Frame) : Environment :=
  ⟨frame :: env.frames⟩

/-- The top frame and the stack without it. -/
def pop (env : Environment) : Except EvalError (Frame × Environment) :=
  match env.frames with
  | [] => .error (.stackDiscipline .popEmpty)
  | frame :: rest => .ok (frame, ⟨rest⟩)

/-- The top frame. -/
def peek (env : Environment) : Except EvalError Frame :=
  match env.frames with
  | [] => .error (.stackDiscipline .peekEmpty)
  | frame :: _ => .ok frame

/-- The top frame and the stack with another frame in its place. -/
def replaceTop (env : Environment) (frame : Frame) : Except EvalError (Frame × Environment) :=
  match env.frames with
  | [] => .error (.stackDiscipline .peekEmpty)
  | old :: rest => .ok (old, ⟨frame :: rest⟩)

/-- The lowest frames, as many as given; all if there are no more. -/
def truncate (env : Environment) (depth : Nat) : Environment :=
  -- The top frame is the first of the list, so those that go lead it.
  ⟨env.frames.drop (env.frames.length - depth)⟩

/-- The value that the topmost scope with the name binds to it. -/
def lookup? (env : Environment) (name : String) : Option Value :=
  env.frames.findSome? (Frame.get? · name)

/-- The value of a name. -/
def resolve (env : Environment) (name : String) : Except EvalError Value :=
  match env.lookup? name with
  | some value => .ok value
  | none => .error (.nameNotFound name)

/-- The stack with a name bound in the top frame, which has to be a scope. -/
def define (env : Environment) (name : String) (value : Value) : Except EvalError Environment :=
  match env.frames with
  | [] => .error (.stackDiscipline .peekEmpty)
  | .ret _ :: _ => .error (.stackDiscipline .bindIntoReturn)
  | .scope bindings :: rest => .ok ⟨.scope (bindings.insert name value) :: rest⟩

/-- The names bound in the bottom frame, if that is a scope. -/
def moduleBindings? (env : Environment) : Option (NameMap Value) :=
  match env.frames.getLast? with
  | some (.scope bindings) => some bindings
  | _ => none

/-! ### Laws -/

/-- Frames are popped in the reverse of the order in which they were pushed. -/
@[simp]
theorem pop_push (env : Environment) (frame : Frame) :
    (env.push frame).pop = .ok (frame, env) := rfl

/-- The frame pushed last is on top. -/
@[simp]
theorem peek_push (env : Environment) (frame : Frame) : (env.push frame).peek = .ok frame := rfl

/-- A push adds one frame. -/
@[simp]
theorem depth_push (env : Environment) (frame : Frame) : (env.push frame).depth = env.depth + 1 :=
  rfl

/-- A cut leaves at most the given number of frames. -/
theorem depth_truncate (env : Environment) (depth : Nat) :
    (env.truncate depth).depth = min depth env.depth := by
  simp only [truncate, Environment.depth, List.length_drop]
  omega

/-- Cutting back to the height before a push undoes it. -/
@[simp]
theorem truncate_push (env : Environment) (frame : Frame) :
    (env.push frame).truncate env.depth = env := by
  cases env with
  | mk frames =>
    simp only [push, truncate, depth, List.length_cons, Nat.add_sub_cancel_left,
      List.drop_succ_cons, List.drop_zero]

/-- A scope on top is asked first. -/
@[simp]
theorem lookup?_push_scope (env : Environment) (bindings : NameMap Value) (name : String) :
    (env.push (.scope bindings)).lookup? name = (bindings.get? name).or (env.lookup? name) := by
  cases h : bindings.get? name <;> simp [push, lookup?, Frame.get?, h]

/-- A pending return on top is never asked. -/
@[simp]
theorem lookup?_push_ret (env : Environment) (value : Value) (name : String) :
    (env.push (.ret value)).lookup? name = env.lookup? name := rfl

end Environment

end ScopeScript
