import ScopeScript.Proofs.Evaluation.Frames

/-!
# Sums and differences of literals

An expression of integer literals that are added and subtracted, in any nesting, has an exact value
among all integers, and so has each of its parts. Evaluation computes with words and reports what
does not fit one. So it gives the exact value if every part has a value that fits, and otherwise the
error of the first part that has not: of the parts before it every one has its exact value, and what
comes after it, the whole expression among them, is not looked at.

* `Arithmetic.exact`: the value among all integers.
* `Arithmetic.parts`: the parts of an expression, in the order in which they are evaluated.
* `Arithmetic.Outcome`: what evaluation comes to, said by exact values alone.

Main statement:

* `Evaluator.evaluate_arithmetic`: sums and differences of literals are exact, or fail at the first
  part that leaves the range.
-/

namespace ScopeScript

/-- Addition or subtraction. -/
inductive Arithmetic.Op where
  | add | sub

/-- An expression of integer literals, added and subtracted. -/
inductive Arithmetic where
  | literal (n : Int64)
  | join (op : Arithmetic.Op) (lhs rhs : Arithmetic)

namespace Arithmetic

/-! ### Exact values -/

/-- The operator of the language. -/
def Op.toBinaryOp : Op → BinaryOp
  | add => .add
  | sub => .sub

/-- The operation on all integers. -/
def Op.exact : Op → Int → Int → Int
  | add => (· + ·)
  | sub => (· - ·)

/-- The expression of the language. -/
def toExpr : Arithmetic → Expr
  | literal n => .int n
  | join op a b => .binary op.toBinaryOp a.toExpr b.toExpr

/-- The value among all integers. -/
def exact : Arithmetic → Int
  | literal n => n.toInt
  | join op a b => op.exact a.exact b.exact

/-- The parts of an expression, itself the last: those of the left operand, those of the right one,
and then the operation on both. -/
def parts : Arithmetic → List Arithmetic
  | literal n => [literal n]
  | join op a b => a.parts ++ b.parts ++ [join op a b]

/-- The exact value is in the range of words. -/
def Fits (s : Arithmetic) : Prop :=
  -9223372036854775808 ≤ s.exact ∧ s.exact ≤ 9223372036854775807

/-- The error that an operation leaves the range. It names the operator and the exact values of the
operands, and so does its text. -/
structure Reports (op : Op) (a b : Arithmetic) (err : EvalError) : Prop where
  /-- The operands are words. -/
  cause : ∃ x y : Int64, x.toInt = a.exact ∧ y.toInt = b.exact ∧ err = .overflow x op.toBinaryOp y
  /-- The text has the exact values in decimal, on both sides of the operator. -/
  text : err.message = "arithmetic overflow: " ++ Text.decimal a.exact ++ " " ++
    op.toBinaryOp.symbol ++ " " ++ Text.decimal b.exact

/-- What the evaluation of an expression comes to. -/
inductive Outcome (s : Arithmetic) : Except EvalError Value → Prop where
  /-- Every part fits, and the value is the exact one. -/
  | value {n : Int64} (hfits : ∀ p ∈ s.parts, p.Fits) (hn : n.toInt = s.exact) :
    Outcome s (.ok (.int n))
  /-- An operation is the first part that does not fit, and it is reported. -/
  | overflow {before after : List Arithmetic} {op : Op} {a b : Arithmetic} {err : EvalError}
    (hparts : s.parts = before ++ join op a b :: after) (hbefore : ∀ p ∈ before, p.Fits)
    (hmisfit : ¬ (join op a b).Fits) (herr : Reports op a b err) : Outcome s (.error err)

/-! ### Evaluation -/

/-- The operators mean exact arithmetic that fits words, in either mode. -/
theorem Op.meaning?_eq (op : Op) (mode : Truthiness) :
    op.toBinaryOp.meaning? mode = some (Value.arithmetic op.toBinaryOp op.exact) := by
  cases op <;> rfl

/-- An expression fits exactly if some word has its value. -/
theorem fits_iff {s : Arithmetic} : s.Fits ↔ ∃ n, Word.ofInt? s.exact = some n := by
  rw [← Option.ne_none_iff_exists', ne_eq, Word.ofInt?_eq_none_iff, Fits]
  omega

/-- A literal is its value. -/
theorem outcome_literal (n : Int64) : (literal n).Outcome (.ok (.int n)) := by
  refine .value ?_ rfl
  intro p hp
  obtain rfl := List.mem_singleton.1 hp
  exact fits_iff.2 ⟨n, Word.ofInt?_toInt n⟩

/-- An operation on two words that are the exact values of operands all of whose parts fit. -/
theorem outcome_arithmetic {op : Op} {a b : Arithmetic} {x y : Int64}
    (ha : ∀ p ∈ a.parts, p.Fits) (hb : ∀ p ∈ b.parts, p.Fits) (hx : x.toInt = a.exact)
    (hy : y.toInt = b.exact) :
    (join op a b).Outcome (Value.arithmetic op.toBinaryOp op.exact (.int x) (.int y)) := by
  have hoperands : ∀ p ∈ a.parts ++ b.parts, p.Fits := by
    intro p hp
    exact (List.mem_append.1 hp).elim (ha p) (hb p)
  have hexact : (join op a b).exact = op.exact x.toInt y.toInt := by
    rw [hx, hy]
    rfl
  rw [Value.arithmetic, ← hexact]
  cases hword : Word.ofInt? (join op a b).exact with
  | some n =>
    refine .value ?_ (Word.ofInt?_eq_some_iff.1 hword)
    intro p hp
    rcases List.mem_append.1 hp with hp | hp
    · exact hoperands p hp
    · obtain rfl := List.mem_singleton.1 hp
      exact fits_iff.2 ⟨n, hword⟩
  | none =>
    -- Only the operation itself, the last of the parts, leaves the range.
    refine .overflow rfl hoperands ?_ ⟨⟨x, y, hx, hy, rfl⟩, ?_⟩
    · rw [fits_iff, hword]
      rintro ⟨n, hn⟩
      cases hn
    · rw [← hx, ← hy]
      rfl

/-- An operation on what both operands come to: the first misfit of the left operand is reported
whatever the right one comes to, and that of the right operand before the operation is tried. -/
theorem outcome_join {op : Op} {a b : Arithmetic} {left right : Except EvalError Value}
    (ha : a.Outcome left) (hb : b.Outcome right) :
    (join op a b).Outcome (left.bind fun x => right.bind fun y =>
      Value.arithmetic op.toBinaryOp op.exact x y) := by
  cases ha with
  | @overflow before after op' a' b' _ hparts hbefore hmisfit herr =>
    have hrest : (join op a b).parts =
        before ++ join op' a' b' :: (after ++ b.parts ++ [join op a b]) := by
      rw [parts, hparts, List.append_assoc, List.append_assoc, List.append_assoc, List.cons_append]
    exact .overflow hrest hbefore hmisfit herr
  | value hafits hx =>
    cases hb with
    | @overflow before after op' a' b' _ hparts hbefore hmisfit herr =>
      have hrest : (join op a b).parts =
          (a.parts ++ before) ++ join op' a' b' :: (after ++ [join op a b]) := by
        rw [parts, hparts, ← List.append_assoc, List.append_assoc _ _ [_], List.cons_append]
      refine .overflow hrest ?_ hmisfit herr
      intro p hp
      exact (List.mem_append.1 hp).elim (hafits p) (hbefore p)
    | value hbfits hy => exact outcome_arithmetic hafits hbfits hx hy

end Arithmetic

/-- Sums and differences of literals, in any nesting, are exact or fail. Whatever the evaluator
holds, evaluation gives the exact value if that of every part fits a word, and otherwise the
overflow of the first part, in the order of evaluation, whose exact value does not; the evaluator is
left as it was. -/
theorem Evaluator.evaluate_arithmetic (s : Arithmetic) (ev : Evaluator) :
    ∃ result, ev.evaluate s.toExpr = (result, ev) ∧ s.Outcome result := by
  induction s with
  | literal n => exact ⟨_, rfl, Arithmetic.outcome_literal n⟩
  | join op a b iha ihb =>
    obtain ⟨left, hleft, ha⟩ := iha
    obtain ⟨right, hright, hb⟩ := ihb
    refine ⟨_, ?_, Arithmetic.outcome_join ha hb⟩
    rw [Arithmetic.toExpr, evaluate_binary (op.meaning?_eq _), hleft, hright]

/-- The whole may fit where a part does not, and the part is reported. -/
example :
    let part : Arithmetic := .join .add (.literal Int64.maxValue) (.literal 1)
    let whole : Arithmetic := .join .sub part (.literal 1)
    let ev : Evaluator := { config := {} }
    whole.exact = Int64.maxValue.toInt ∧
      (ev.evaluate whole.toExpr).1 = .error (.overflow Int64.maxValue .add 1) :=
  ⟨rfl, rfl⟩

end ScopeScript
