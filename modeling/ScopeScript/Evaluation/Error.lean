import ScopeScript.Syntax.Render
import ScopeScript.Value.Basic

/-!
# Errors of evaluation

Why an evaluation ends without a value, each cause with what its diagnostic names. Nothing in the
language catches an error: it ends the whole evaluation.
-/

namespace ScopeScript

/-- A breach of the order in which frames are pushed and popped. -/
inductive StackFault where
  /-- A pop from a stack without frames. -/
  | popEmpty
  /-- A look at the top of a stack without frames. -/
  | peekEmpty
  /-- A name bound while a pending return is the top frame. -/
  | bindIntoReturn
  /-- A body that ended without a pending return on top. -/
  | noReturn
  /-- A pending return below another in the frames of one call. -/
  | secondReturn
  deriving DecidableEq, Repr

/-- The breach as a diagnostic words it. -/
def StackFault.text : StackFault → String
  | popEmpty => "pop on an empty frame stack"
  | peekEmpty => "peek on an empty frame stack"
  | bindIntoReturn => "binding into a pending return frame"
  | noReturn => "function body finished without a return frame"
  | secondReturn => "second return frame above an argument frame"

/-- Why an evaluation ends without a value. -/
inductive EvalError where
  /-- A name that no scope on the stack binds. -/
  | nameNotFound (name : String)
  /-- Operands of kinds that an arithmetic operator does not take. -/
  | unsupportedOperands (op : BinaryOp) (lhs rhs : Kind)
  /-- A membership test in a value of a kind without members. -/
  | notIterable (kind : Kind)
  /-- Operands of kinds that have no order. -/
  | notOrdered (op : BinaryOp) (lhs rhs : Kind)
  /-- A call with another number of arguments than the function has parameters. -/
  | arity (name : String) (expected found : Nat)
  /-- A call of a value that is no function. -/
  | notCallable (kind : Kind)
  /-- An asserted expression that does not count as true. -/
  | assertionFailed (asserted : Expr)
  /-- An expression whose operator has no meaning in the language. -/
  | notImplemented (e : Expr)
  /-- A comparison by an operator that is none. -/
  | notComparison (op : BinaryOp)
  /-- A sum or difference that does not fit a word. -/
  | overflow (lhs : Int64) (op : BinaryOp) (rhs : Int64)
  /-- A return at the top level of a program. -/
  | returnOutsideFunction
  /-- A call when as many as allowed are in progress. -/
  | callDepthExceeded (limit : Nat)
  /-- A breach of the order of the frames. -/
  | stackDiscipline (fault : StackFault)
  /-- Arguments from a host that cannot be decoded, with what the decoder reports of them. -/
  | hostArguments (report : String)
  /-- A host's call of a binding that is no function. -/
  | notAFunction (name : String)
  deriving DecidableEq

namespace EvalError

/-- A word between single quotes. -/
def quoted (s : String) : String :=
  "'" ++ s ++ "'"

/-- The diagnostic for an error. -/
def message : EvalError → String
  | nameNotFound name => "name " ++ quoted name ++ " is not defined"
  | unsupportedOperands op a b =>
    "type mismatch: unsupported operand type(s) for " ++ op.symbol ++ ": " ++ quoted a.name ++
      " and " ++ quoted b.name
  | notIterable k => "type mismatch: argument of type " ++ quoted k.name ++ " is not iterable"
  | notOrdered op a b =>
    "type mismatch: " ++ quoted op.symbol ++ " not supported between instances of " ++
      quoted a.name ++ " and " ++ quoted b.name
  | arity name expected found =>
    name ++ "() takes " ++ Text.decimal expected ++ " positional arguments but " ++
      Text.decimal found ++ " were given"
  | notCallable k => quoted k.name ++ " object is not callable"
  | assertionFailed e => "assertion failed: " ++ e.render
  | notImplemented e => "not implemented: " ++ e.render
  | notComparison op => "not implemented: " ++ quoted op.symbol ++ " is not a comparison"
  | overflow a op b =>
    "arithmetic overflow: " ++ Text.decimal a.toInt ++ " " ++ op.symbol ++ " " ++
      Text.decimal b.toInt
  | returnOutsideFunction => "'return' outside function"
  | callDepthExceeded limit => "maximum call depth of " ++ Text.decimal limit ++ " exceeded"
  | stackDiscipline fault => "frame stack discipline violated: " ++ fault.text
  | hostArguments report => "invalid host arguments: " ++ report
  | notAFunction name => "module binding " ++ quoted name ++ " is not a function"

end EvalError

end ScopeScript
