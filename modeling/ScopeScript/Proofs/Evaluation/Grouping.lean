import ScopeScript.Proofs.Evaluation.Frames
import ScopeScript.Proofs.Phrase.Reading

/-!
# Grouping of connectives

Operands joined by `and`, or by `or`, may be grouped in any way. The value of a group is a truth
value, and a truth value counts as itself in both modes; evaluation goes through all operands in
order, wherever the parentheses stand, and each is evaluated by the same evaluator. So every
grouping of the same operands gives whether all of them, or any, count as true, or the error of the
first that fails.

* `Grouping`: a binary tree over operands.
* `Evaluator.jointly`: what several operands come to, without a grouping.
* `BinaryOp.Connects`: how a connective takes the truth of many values from that of two.
* `Evaluator.evaluate_grouping`: a grouping has the outcome of its operands without one.

Main statement:

* `Evaluator.grouping_unobservable`: all groupings have one outcome, and a conjunction or a
  disjunction that is read from a tree has it too.
-/

namespace ScopeScript

/-! ### Groupings -/

/-- The ways to group operands in pairs. -/
inductive Grouping where
  | single (e : Expr)
  | pair (lhs rhs : Grouping)

namespace Grouping

/-- The operands, from left to right. -/
def operands : Grouping → List Expr
  | single e => [e]
  | pair l r => l.operands ++ r.operands

/-- The expression that joins the operands by an operator. -/
def toExpr (op : BinaryOp) : Grouping → Expr
  | single e => e
  | pair l r => .binary op (l.toExpr op) (r.toExpr op)

/-- A grouping of more than one operand is a pair. -/
theorem exists_pair {g : Grouping} (h : 2 ≤ g.operands.length) : ∃ l r, g = pair l r := by
  cases g with
  | single e =>
    have hone : (single e).operands.length = 1 := rfl
    omega
  | pair l r => exact ⟨l, r, rfl⟩

/-- Operands joined to the left, one after the other, are grouped. -/
theorem exists_foldl (op : BinaryOp) (g : Grouping) (es : List Expr) :
    ∃ g' : Grouping, g'.operands = g.operands ++ es ∧
      g'.toExpr op = es.foldl (.binary op) (g.toExpr op) := by
  induction es generalizing g with
  | nil => exact ⟨g, by simp, rfl⟩
  | cons e es ih =>
    obtain ⟨g', hoperands, hexpr⟩ := ih (pair g (single e))
    refine ⟨g', ?_, hexpr⟩
    rw [hoperands, operands, operands, List.append_assoc, List.singleton_append]

end Grouping

namespace Node

/-- The level of a connective, the level of its operands, and the operator. -/
inductive Joins : Rule → Rule → BinaryOp → Prop where
  | conjunction : Joins .conjunction .inversion .and
  | disjunction : Joins .disjunction .conjunction .or

/-- A node at the level of a connective is read as its operands, joined to the left. -/
theorem toExpr_of_joins {n : Node} {operand : Rule} {op : BinaryOp} {es : List Expr} {e : Expr}
    (hlevel : Joins n.rule operand op) (hread : (n.children operand).mapM toExpr = .ok es)
    (he : Expr.joined? op es = some e) : n.toExpr = .ok e := by
  obtain ⟨rule, items⟩ := n
  rw [← exprsAt_items] at hread
  change exprsAt operand items = .ok es at hread
  change Joins rule operand op at hlevel
  cases hlevel with
  | conjunction => rw [toExpr, hread, Phrase.joined_ok he]
  | disjunction => rw [toExpr, hread, Phrase.joined_ok he]

end Node

/-! ### Operands without a grouping -/

/-- The values of several operands, each from the same evaluator, or the error of the first that
fails. -/
def Evaluator.valuesOf (ev : Evaluator) (es : List Expr) : Except EvalError (List Value) :=
  es.mapM fun e => (ev.evaluate e).1

/-- Whether the values of several operands pass a test of their truth, or the error of the first
operand that fails. -/
def Evaluator.jointly (ev : Evaluator) (test : List Value → (Value → Bool) → Bool)
    (es : List Expr) : Except EvalError Value :=
  (ev.valuesOf es).map fun vs => .bool (test vs (·.truthy ev.config.truthiness))

/-- The operator is a connective that takes the truth of many values as the test does: that of a
single value is its own, and that of two lists in a row is connected from the two. -/
structure BinaryOp.Connects (mode : Truthiness) (op : BinaryOp) (connect : Bool → Bool → Bool)
    (test : List Value → (Value → Bool) → Bool) : Prop where
  /-- The operator connects the truth of its operands. -/
  meaning : op.meaning? mode = some (Value.connective mode connect)
  /-- A single value. -/
  single : ∀ v, test [v] (·.truthy mode) = v.truthy mode
  /-- Values in a row. -/
  append : ∀ vs ws, test (vs ++ ws) (·.truthy mode) =
    connect (test vs (·.truthy mode)) (test ws (·.truthy mode))

/-- `and` tests whether all values count as true. -/
theorem BinaryOp.connects_and (mode : Truthiness) : Connects mode .and (· && ·) List.all where
  meaning := rfl
  single v := by simp
  append vs ws := List.all_append

/-- `or` tests whether any value counts as true. -/
theorem BinaryOp.connects_or (mode : Truthiness) : Connects mode .or (· || ·) List.any where
  meaning := rfl
  single v := by simp
  append vs ws := List.any_append

/-- A connective looks at nothing of its operands but their truth. -/
theorem Value.bind_connective (mode : Truthiness) (connect : Bool → Bool → Bool)
    (x y : Except EvalError Value) :
    (x.bind fun v => y.bind fun w => connective mode connect v w) =
      (x.map (·.truthy mode)).bind fun p => (y.map (·.truthy mode)).bind fun q =>
        .ok (bool (connect p q)) := by
  cases x with
  | error err => rfl
  | ok v => cases y <;> rfl

/-! ### Evaluation -/

namespace Evaluator

variable {ev : Evaluator} {op : BinaryOp} {connect : Bool → Bool → Bool}
  {test : List Value → (Value → Bool) → Bool}

/-- The values of a single operand. -/
theorem valuesOf_single (e : Expr) : ev.valuesOf [e] = (ev.evaluate e).1.map fun v => [v] := by
  rw [valuesOf, List.mapM_cons]
  cases (ev.evaluate e).1 <;> rfl

/-- The values of operands in a row. -/
theorem valuesOf_append (es es' : List Expr) :
    ev.valuesOf (es ++ es') =
      (ev.valuesOf es).bind fun vs => (ev.valuesOf es').bind fun ws => .ok (vs ++ ws) :=
  List.mapM_append

/-- A group counts as true when its operands pass the test, and fails with the first error of an
operand. -/
def CountsAs (ev : Evaluator) (op : BinaryOp) (test : List Value → (Value → Bool) → Bool)
    (g : Grouping) : Prop :=
  (ev.evaluate (g.toExpr op)).1.map (·.truthy ev.config.truthiness) =
    (ev.valuesOf g.operands).map fun vs => test vs (·.truthy ev.config.truthiness)

/-- A pair has the outcome of all its operands, if both groups in it count as theirs. -/
theorem evaluate_pair (hop : op.Connects ev.config.truthiness connect test) {l r : Grouping}
    (hl : CountsAs ev op test l) (hr : CountsAs ev op test r) :
    ev.evaluate ((Grouping.pair l r).toExpr op) =
      (ev.jointly test (Grouping.pair l r).operands, ev) := by
  rw [CountsAs] at hl hr
  rw [Grouping.toExpr, evaluate_binary hop.meaning, Value.bind_connective, hl, hr, jointly,
    Grouping.operands, valuesOf_append]
  cases ev.valuesOf l.operands with
  | error err => rfl
  | ok vs =>
    cases ev.valuesOf r.operands with
    | error err => rfl
    | ok ws =>
      have happend := hop.append vs ws
      exact congrArg (fun b => (Except.ok (Value.bool b), ev)) happend.symm

/-- However operands are grouped, the group counts as they do. -/
theorem countsAs_grouping (hop : op.Connects ev.config.truthiness connect test) (g : Grouping) :
    CountsAs ev op test g := by
  induction g with
  | single e =>
    rw [CountsAs, Grouping.toExpr, Grouping.operands, valuesOf_single]
    cases (ev.evaluate e).1 with
    | error err => rfl
    | ok v => exact congrArg Except.ok (hop.single v).symm
  | pair l r ihl ihr =>
    -- The value of a pair is a truth value, which counts as itself in either mode.
    rw [CountsAs, evaluate_pair hop ihl ihr, jointly]
    cases ev.valuesOf (Grouping.pair l r).operands <;> rfl

/-- A grouping of two or more operands has the outcome of the operands without a grouping. -/
theorem evaluate_grouping (hop : op.Connects ev.config.truthiness connect test) {g : Grouping}
    (h : 2 ≤ g.operands.length) :
    ev.evaluate (g.toExpr op) = (ev.jointly test g.operands, ev) := by
  obtain ⟨l, r, rfl⟩ := Grouping.exists_pair h
  exact evaluate_pair hop (countsAs_grouping hop l) (countsAs_grouping hop r)

/-- Operands joined to the left have the outcome of the operands without a grouping. -/
theorem evaluate_joined (hop : op.Connects ev.config.truthiness connect test) {es : List Expr}
    (hes : 2 ≤ es.length) {e : Expr} (h : Expr.joined? op es = some e) :
    ev.evaluate e = (ev.jointly test es, ev) := by
  cases es with
  | nil => cases h
  | cons a as =>
    obtain rfl := Option.some.inj h
    obtain ⟨g, hoperands, hexpr⟩ := Grouping.exists_foldl op (.single a) as
    change g.operands = a :: as at hoperands
    change g.toExpr op = as.foldl (.binary op) a at hexpr
    rw [← hoperands] at hes ⊢
    rw [← hexpr]
    exact evaluate_grouping hop hes

/-- The outcome of every grouping of several operands by a connective, and of what a tree with these
operands is read as. -/
theorem evaluate_connective (hop : op.Connects ev.config.truthiness connect test)
    {level operand : Rule} (hlevel : Node.Joins level operand op) {es : List Expr}
    (hes : 2 ≤ es.length) :
    (∀ g : Grouping, g.operands = es → ev.evaluate (g.toExpr op) = (ev.jointly test es, ev)) ∧
      ∀ n : Node, n.rule = level → (n.children operand).mapM Node.toExpr = .ok es →
        ∃ e, n.toExpr = .ok e ∧ Expr.joined? op es = some e ∧
          ev.evaluate e = (ev.jointly test es, ev) := by
  constructor
  · rintro g rfl
    exact evaluate_grouping hop hes
  · rintro n rfl hread
    obtain ⟨e, he⟩ : ∃ e, Expr.joined? op es = some e := by
      cases es with
      | nil => cases hes
      | cons a as => exact ⟨_, rfl⟩
    exact ⟨e, Node.toExpr_of_joins hlevel hread he, he, evaluate_joined hop hes he⟩

/-- Where the parentheses stand between operands of `and`, or between operands of `or`, shows in no
outcome. Whatever the evaluator holds and in either mode, every grouping of two or more operands
gives whether all of them, or any, count as true, or the error of the first that fails; and so does
what a conjunction or a disjunction with these operands is read as, which joins them to the left. -/
theorem grouping_unobservable (ev : Evaluator) {es : List Expr} (hes : 2 ≤ es.length) :
    ((∀ g : Grouping, g.operands = es →
        ev.evaluate (g.toExpr .and) = (ev.jointly List.all es, ev)) ∧
      ∀ n : Node, n.rule = .conjunction → (n.children .inversion).mapM Node.toExpr = .ok es →
        ∃ e, n.toExpr = .ok e ∧ Expr.joined? .and es = some e ∧
          ev.evaluate e = (ev.jointly List.all es, ev)) ∧
    ((∀ g : Grouping, g.operands = es →
        ev.evaluate (g.toExpr .or) = (ev.jointly List.any es, ev)) ∧
      ∀ n : Node, n.rule = .disjunction → (n.children .conjunction).mapM Node.toExpr = .ok es →
        ∃ e, n.toExpr = .ok e ∧ Expr.joined? .or es = some e ∧
          ev.evaluate e = (ev.jointly List.any es, ev)) :=
  ⟨evaluate_connective (BinaryOp.connects_and _) .conjunction hes,
    evaluate_connective (BinaryOp.connects_or _) .disjunction hes⟩

/-- An integer and a call, which are no truth values, before two operands that fail: all groupings
report the first of the two, and the pair of the others has the truth value of its operands. -/
theorem grouping_unobservable_of_failures :
    let f : FuncDef Nat := ⟨0, "f", [], [.ret (some (.int 0))]⟩
    let ev : Evaluator :=
      { config := { truthiness := .python },
        env := ⟨[.scope (NameMap.empty.insert "f" (.function f))]⟩ }
    let called : Expr := .call (.name "f") []
    let es : List Expr := [.int 2, called, .name "g", .call (.int 1) []]
    let first : Grouping := .pair (.single (.int 2)) (.single called)
    let left : Grouping := .pair (.pair first (.single (.name "g"))) (.single (.call (.int 1) []))
    let even : Grouping := .pair first (.pair (.single (.name "g")) (.single (.call (.int 1) [])))
    let n := Phrase.conjunction [Phrase.number "2", Phrase.call (Phrase.name "f") [],
      Phrase.name "g", Phrase.call (Phrase.number "1") []]
    2 ≤ es.length ∧ left.operands = es ∧ even.operands = es ∧
      ev.evaluate (left.toExpr .or) = ev.evaluate (even.toExpr .or) ∧
      (ev.evaluate (even.toExpr .or)).1 = .error (.nameNotFound "g") ∧
      (ev.evaluate (first.toExpr .or)).1 = .ok (.bool true) ∧
      (ev.evaluate (first.toExpr .and)).1 = .ok (.bool false) ∧
      n.rule = .conjunction ∧ (n.children .inversion).mapM Node.toExpr = .ok es ∧
      ∃ e, n.toExpr = .ok e ∧ (ev.evaluate e).1 = .error (.nameNotFound "g") := by
  intro f ev called es first left even n
  have hes : 2 ≤ es.length := by decide
  have hread : (n.children .inversion).mapM Node.toExpr = .ok es := rfl
  obtain ⟨⟨-, htree⟩, hor, -⟩ := grouping_unobservable ev hes
  have hfirst : 2 ≤ first.operands.length := by decide
  obtain ⟨⟨hfirstAnd, -⟩, hfirstOr, -⟩ := grouping_unobservable ev hfirst
  obtain ⟨e, he, -, heval⟩ := htree n rfl hread
  have hsame : ev.evaluate (left.toExpr .or) = ev.evaluate (even.toExpr .or) :=
    (hor left rfl).trans (hor even rfl).symm
  refine ⟨hes, rfl, rfl, hsame, ?_, ?_, ?_, rfl, hread, e, he, ?_⟩
  · rw [hor even rfl]
    rfl
  · rw [hfirstOr first rfl]
    rfl
  · rw [hfirstAnd first rfl]
    rfl
  · rw [heval]
    rfl

end Evaluator

end ScopeScript
