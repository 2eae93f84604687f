import ScopeScript.Evaluation.Error
import ScopeScript.Word

/-!
# Operations on values

Addition, subtraction, comparison and the boolean connectives. Integer arithmetic is exact: a result
that does not fit a word is an error. Integers alone are added, subtracted and ordered; equality is
defined on all values, and identity is the same relation, since values never change.

* `BinaryOp.kind_of_meaning?`: operators give truth values and integers.
-/

namespace ScopeScript

namespace Value

/-- An operation on integers by its exact result. -/
def arithmetic (op : BinaryOp) (exact : Int → Int → Int) : Value → Value → Except EvalError Value
  | int a, int b =>
    match Word.ofInt? (exact a.toInt b.toInt) with
    | some n => .ok (int n)
    | Option.none => .error (.overflow a op b)
  | a, b => .error (.unsupportedOperands op a.kind b.kind)

/-- The sum of two integers. -/
def add : Value → Value → Except EvalError Value :=
  arithmetic .add (· + ·)

/-- The difference of two integers. -/
def sub : Value → Value → Except EvalError Value :=
  arithmetic .sub (· - ·)

/-- A test of the order of two integers. -/
def ordered (op : BinaryOp) (test : Int64 → Int64 → Bool) : Value → Value → Except EvalError Bool
  | int a, int b => .ok (test a b)
  | a, b => .error (.notOrdered op a.kind b.kind)

/-- One link of a comparison chain. No value has members, so a membership test fails whatever the
operands are. -/
def compare (op : BinaryOp) (a b : Value) : Except EvalError Bool :=
  match op with
  | .eq | .is => .ok (decide (a = b))
  | .notEq | .isNot => .ok (decide (a ≠ b))
  | .isIn | .notIn => .error (.notIterable b.kind)
  | .lt => ordered .lt (fun m n => decide (m < n)) a b
  | .le => ordered .le (fun m n => decide (m ≤ n)) a b
  | .gt => ordered .gt (fun m n => decide (n < m)) a b
  | .ge => ordered .ge (fun m n => decide (n ≤ m)) a b
  | _ => .error (.notComparison op)

/-- A connective of two truth values. -/
def connective (mode : Truthiness) (test : Bool → Bool → Bool) (a b : Value) :
    Except EvalError Value :=
  .ok (bool (test (a.truthy mode) (b.truthy mode)))

end Value

/-- What a binary operator does with the values of its operands, absent for the operators without
a meaning in the language. Both operands are always evaluated, also those of `and` and `or`. -/
def BinaryOp.meaning? (mode : Truthiness) (op : BinaryOp) :
    Option (Value → Value → Except EvalError Value) :=
  match op with
  | .or => some (Value.connective mode (· || ·))
  | .and => some (Value.connective mode (· && ·))
  | .add => some Value.add
  | .sub => some Value.sub
  | .bitOr | .bitXor | .bitAnd | .shl | .shr | .mul | .div | .floorDiv | .mod | .matMul | .pow =>
    none
  | op => some fun a b => (Value.compare op a b).map .bool

/-- A comparison means its link. -/
theorem BinaryOp.meaning?_of_isComparison {op : BinaryOp} (h : op.isComparison = true)
    (mode : Truthiness) :
    op.meaning? mode = some fun a b => (Value.compare op a b).map .bool := by
  revert h
  cases op <;> simp [isComparison, meaning?]

/-- Arithmetic gives integers. -/
theorem Value.kind_of_arithmetic {op : BinaryOp} {exact : Int → Int → Int} {a b v : Value}
    (h : arithmetic op exact a b = .ok v) : v.kind = .int := by
  unfold arithmetic at h
  split at h
  · split at h
    · cases h
      rfl
    · cases h
  · cases h

/-- What is made of a truth value is one. -/
theorem Value.kind_of_map_bool {r : Except EvalError Bool} {v : Value} (h : r.map bool = .ok v) :
    v.kind = .bool := by
  cases r with
  | error e => cases h
  | ok b =>
    cases h
    rfl

/-- An operator with a meaning gives truth values or integers. -/
theorem BinaryOp.kind_of_meaning? {op : BinaryOp} {mode : Truthiness}
    {meaning : Value → Value → Except EvalError Value} (h : op.meaning? mode = some meaning)
    {a b v : Value} (hv : meaning a b = .ok v) : v.kind = .bool ∨ v.kind = .int := by
  cases op with
  | or | and =>
    cases h
    cases hv
    exact .inl rfl
  | add | sub =>
    cases h
    exact .inr (Value.kind_of_arithmetic hv)
  | eq | notEq | lt | le | gt | ge | isIn | notIn | is | isNot =>
    cases h
    exact .inl (Value.kind_of_map_bool hv)
  | _ => cases h

/-- An operator with a meaning gives no function. -/
theorem BinaryOp.kind_ne_function_of_meaning? {op : BinaryOp} {mode : Truthiness}
    {meaning : Value → Value → Except EvalError Value} (h : op.meaning? mode = some meaning)
    {a b v : Value} (hv : meaning a b = .ok v) : v.kind ≠ .function := by
  rcases kind_of_meaning? h hv with hkind | hkind <;> simp [hkind]

end ScopeScript
