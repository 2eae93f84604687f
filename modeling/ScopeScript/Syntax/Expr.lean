import ScopeScript.Syntax.Operator

/-!
# Expressions

The abstract syntax of expressions. Integers are 64-bit words; a negative one never comes from a
parse tree, where a minus sign is an operator of its own.
-/

namespace ScopeScript

/-- An expression. -/
inductive Expr where
  | none
  | bool (value : Bool)
  | int (value : Int64)
  | name (id : String)
  | unary (op : UnaryOp) (operand : Expr)
  | binary (op : BinaryOp) (lhs rhs : Expr)
  | ternary (body condition orelse : Expr)
  | call (callee : Expr) (args : List Expr)

namespace Expr

/-! ### Equality -/

mutual

/-- Whether two expressions are the same tree. -/
def beq : Expr → Expr → Bool
  | none, none => true
  | bool a, bool b => decide (a = b)
  | int a, int b => decide (a = b)
  | name a, name b => decide (a = b)
  | unary op a, unary op' a' => decide (op = op') && beq a a'
  | binary op a b, binary op' a' b' => decide (op = op') && beq a a' && beq b b'
  | ternary a b c, ternary a' b' c' => beq a a' && beq b b' && beq c c'
  | call f as, call f' as' => beq f f' && beqAll as as'
  | _, _ => false

/-- Whether two lists of expressions are the same, tree by tree. -/
def beqAll : List Expr → List Expr → Bool
  | [], [] => true
  | a :: as, b :: bs => beq a b && beqAll as bs
  | _, _ => false

end

mutual

/-- The equality test on expressions decides equality. -/
theorem beq_iff_eq : ∀ a b : Expr, beq a b = true ↔ a = b
  | none, b => by cases b <;> simp [beq]
  | bool _, b => by cases b <;> simp [beq]
  | int _, b => by cases b <;> simp [beq]
  | name _, b => by cases b <;> simp [beq]
  | unary _ a, b => by
    cases b with
    | unary _ a' => simp [beq, beq_iff_eq a a']
    | _ => simp [beq]
  | binary _ a b, c => by
    cases c with
    | binary _ a' b' => simp [beq, beq_iff_eq a a', beq_iff_eq b b', and_assoc]
    | _ => simp [beq]
  | ternary a b c, d => by
    cases d with
    | ternary a' b' c' =>
      simp [beq, beq_iff_eq a a', beq_iff_eq b b', beq_iff_eq c c', and_assoc]
    | _ => simp [beq]
  | call f as, d => by
    cases d with
    | call f' as' => simp [beq, beq_iff_eq f f', beqAll_iff_eq as as']
    | _ => simp [beq]

/-- The equality test on lists of expressions decides equality. -/
theorem beqAll_iff_eq : ∀ as bs : List Expr, beqAll as bs = true ↔ as = bs
  | [], bs => by cases bs <;> simp [beqAll]
  | a :: as, bs => by
    cases bs with
    | nil => simp [beqAll]
    | cons b bs => simp [beqAll, beq_iff_eq a b, beqAll_iff_eq as bs]

end

instance : DecidableEq Expr := fun a b => decidable_of_iff (beq a b = true) (beq_iff_eq a b)

/-! ### Strength -/

/-- How tightly the outermost construct binds. A negative integer is written with a minus sign and
binds like one. -/
def strength : Expr → Strength
  | ternary _ _ _ => Strength.choice
  | binary op _ _ => op.strength
  | unary op _ => op.strength
  | int n => if n < 0 then UnaryOp.neg.strength else Strength.atom
  | none | bool _ | name _ | call _ _ => Strength.atom

end Expr

end ScopeScript
