/-!
# Operators

The operators of expressions, their spellings, and how tightly each binds. Rendering compares the
strength of an operand with the least strength that its place takes bare, and parenthesises the
operand where it falls short.
-/

namespace ScopeScript

/-- How tightly the outermost construct of an expression binds; more binds tighter. -/
abbrev Strength := Nat

namespace Strength

/-- A choice, the loosest construct. -/
def choice : Strength := 0

/-- The operand of a choice: anything but another choice or an unpacking. -/
def disjunction : Strength := 1

/-- Literals, names and calls, which nothing splits. -/
def atom : Strength := 13

end Strength

/-- An operator between two operands. -/
inductive BinaryOp where
  -- Boolean
  | or | and
  -- Comparison
  | eq | notEq | lt | le | gt | ge | isIn | notIn | is | isNot
  -- Bitwise
  | bitOr | bitXor | bitAnd | shl | shr
  -- Arithmetic
  | add | sub | mul | div | floorDiv | mod | matMul | pow
  deriving DecidableEq, Repr

namespace BinaryOp

/-- The operator as written between its operands. -/
def symbol : BinaryOp → String
  | or => "or"
  | and => "and"
  | eq => "=="
  | notEq => "!="
  | lt => "<"
  | le => "<="
  | gt => ">"
  | ge => ">="
  | isIn => "in"
  | notIn => "not in"
  | is => "is"
  | isNot => "is not"
  | bitOr => "|"
  | bitXor => "^"
  | bitAnd => "&"
  | shl => "<<"
  | shr => ">>"
  | add => "+"
  | sub => "-"
  | mul => "*"
  | div => "/"
  | floorDiv => "//"
  | mod => "%"
  | matMul => "@"
  | pow => "**"

/-- Whether the operator may link the operands of a comparison chain. -/
def isComparison : BinaryOp → Bool
  | eq | notEq | lt | le | gt | ge | isIn | notIn | is | isNot => true
  | _ => false

/-- How tightly the operator binds. -/
def strength : BinaryOp → Strength
  | or => 1
  | and => 2
  | eq | notEq | lt | le | gt | ge | isIn | notIn | is | isNot => 4
  | bitOr => 5
  | bitXor => 6
  | bitAnd => 7
  | shl | shr => 8
  | add | sub => 9
  | mul | div | floorDiv | mod | matMul => 10
  | pow => 12

/-- The least strength of a left operand written bare. A comparison there would join the chain, and
the base of a power is an atom or a call; every other operator groups to the left. -/
def leftStrength (op : BinaryOp) : Strength :=
  if op.isComparison then op.strength + 1
  else if op = pow then Strength.atom
  else op.strength

/-- The least strength of a right operand written bare. An exponent may carry a sign, which binds
looser than the power itself. -/
def rightStrength (op : BinaryOp) : Strength :=
  if op = pow then 11 else op.strength + 1

end BinaryOp

/-- An operator before its single operand. -/
inductive UnaryOp where
  | not | neg | pos | bitNot | star
  deriving DecidableEq, Repr

namespace UnaryOp

/-- The operator as written before its operand, with the space that the word needs. -/
def symbol : UnaryOp → String
  | not => "not "
  | neg => "-"
  | pos => "+"
  | bitNot => "~"
  | star => "*"

/-- How tightly the operator binds. -/
def strength : UnaryOp → Strength
  | star => 0
  | not => 3
  | neg | pos | bitNot => 11

/-- The least strength of an operand written bare. An unpacking takes anything from `|` up. -/
def operandStrength : UnaryOp → Strength
  | star => BinaryOp.bitOr.strength
  | op => op.strength

end UnaryOp

end ScopeScript
