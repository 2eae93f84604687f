import ScopeScript.Grammar.Phrase
import ScopeScript.Syntax.Expr
import ScopeScript.Syntax.Literal
import ScopeScript.Syntax.TreeError

/-!
# Expressions from parse trees

The expression that a node of the expression grammar stands for, one case for each production. Each
production reads the children that the grammar gives it; what the language leaves out is a fault.
Parentheses leave no trace, and a comparison chain becomes the conjunction of its links, each of
which repeats the operand before it.

* `exprAt_items`, `exprsAt_items`, `linksAt_items`, `argsAt_items`: the sweeps over a node's items
  read exactly the children found by production.
-/

namespace ScopeScript

namespace Expr

/-- A comparison chain continued from a finished part `acc`, whose last operand is `previous`. -/
def chainFrom (acc previous : Expr) : List (BinaryOp × Expr) → Expr
  | [] => acc
  | (op, e) :: rest => chainFrom (binary .and acc (binary op previous e)) e rest

/-- A comparison chain: the conjunction of its links, grouped to the left. -/
def chain (first : Expr) : List (BinaryOp × Expr) → Expr
  | [] => first
  | (op, e) :: rest => chainFrom (binary op first e) e rest

end Expr

namespace Node

/-- The productions of the comparison links with their operators, in the order in which a link is
searched for one. -/
def linkOperators : List (Rule × BinaryOp) :=
  [(.eqBitwiseOr, .eq), (.noteqBitwiseOr, .notEq), (.lteBitwiseOr, .le), (.ltBitwiseOr, .lt),
   (.gteBitwiseOr, .ge), (.gtBitwiseOr, .gt), (.notinBitwiseOr, .notIn), (.inBitwiseOr, .isIn),
   (.isnotBitwiseOr, .isNot), (.isBitwiseOr, .is)]

/-- The operator of a node at one of the left-recursive levels, told by its tokens. -/
def levelOperator (n : Node) : BinaryOp :=
  match n.rule with
  | .bitwiseOr => .bitOr
  | .bitwiseXor => .bitXor
  | .bitwiseAnd => .bitAnd
  | .shiftExpr => if n.hasToken .leftShift then .shl else .shr
  | .sum => if n.hasToken .plus then .add else .sub
  | _ =>
    if n.hasToken .star then .mul
    else if n.hasToken .slash then .div
    else if n.hasToken .doubleSlash then .floorDiv
    else if n.hasToken .percent then .mod
    else .matMul

/-- The operator of a node that applies a sign or a complement, told by its tokens. -/
def signOperator (n : Node) : UnaryOp :=
  if n.hasToken .plus then .pos
  else if n.hasToken .minus then .neg
  else .bitNot

/-- One or more operands joined by an operator that groups to the left. -/
def joined (n : Node) (operand : Rule) (op : BinaryOp) (operands : Except TreeError (List Expr)) :
    Except TreeError Expr :=
  operands.bind fun
    | [] => .error (.missing n.rule (.production operand))
    | e :: es => .ok (es.foldl (Expr.binary op) e)

/-- The literal or name that an atom's tokens spell, if they spell one. -/
def atomToken? (n : Node) : Option (Except TreeError Expr) :=
  match n.token? .name with
  | some id => some (.ok (.name id))
  | none =>
    match n.token? .number with
    | some text =>
      match Literal.read? text with
      | some value => some (.ok (.int value))
      | none => some (.error (.invalidLiteral text))
    | none =>
      if n.hasToken .kwTrue then some (.ok (.bool true))
      else if n.hasToken .kwFalse then some (.ok (.bool false))
      else if n.hasToken .kwNone then some (.ok .none)
      else none

mutual

/-- The expression that a node stands for, by its production. -/
def toExpr : Node → Except TreeError Expr
  | mk rule items =>
    let n := mk rule items
    match rule with
    -- More than one expression, or a trailing comma, would build a tuple.
    | .starExpressions =>
      if n.childCount .starExpression != 1 || n.hasToken .comma then .error n.unsupported
      else n.need .starExpression (exprAt .starExpression 0 items)
    | .starExpression =>
      match exprAt .expression 0 items with
      | some e => e
      | none => n.supported ((exprAt .bitwiseOr 0 items).map fun e => e.map (.unary .star))
    | .namedExpression => n.supported (exprAt .expression 0 items)
    | .expression =>
      if n.hasChild .lambdef then .error n.unsupported
      else do
        let body ← n.need .disjunction (exprAt .disjunction 0 items)
        match exprAt .disjunction 1 items with
        | none => return body
        | some condition =>
          let condition ← condition
          let orelse ← n.need .expression (exprAt .expression 0 items)
          return .ternary body condition orelse
    | .disjunction => n.joined .conjunction .or (exprsAt .conjunction items)
    | .conjunction => n.joined .inversion .and (exprsAt .inversion items)
    | .inversion =>
      match exprAt .inversion 0 items with
      | some operand => operand.map (.unary .not)
      | none => n.need .comparison (exprAt .comparison 0 items)
    | .comparison => do
      let first ← n.need .bitwiseOr (exprAt .bitwiseOr 0 items)
      let links ← linksAt items
      return first.chain links
    | .eqBitwiseOr | .noteqBitwiseOr | .lteBitwiseOr | .ltBitwiseOr | .gteBitwiseOr | .gtBitwiseOr
    | .notinBitwiseOr | .inBitwiseOr | .isnotBitwiseOr | .isBitwiseOr =>
      n.need .bitwiseOr (exprAt .bitwiseOr 0 items)
    -- The right operand is read first, so its fault is the one reported.
    | .bitwiseOr | .bitwiseXor | .bitwiseAnd | .shiftExpr | .sum | .term => do
      let rhs ← n.need rule.rightOperand (exprAt rule.rightOperand 0 items)
      match exprAt rule 0 items with
      | none => return rhs
      | some lhs => return .binary n.levelOperator (← lhs) rhs
    | .factor =>
      match exprAt .power 0 items with
      | some e => e
      | none => (n.need .factor (exprAt .factor 0 items)).map (.unary n.signOperator)
    | .power => do
      let base ← n.need .awaitPrimary (exprAt .awaitPrimary 0 items)
      match exprAt .factor 0 items with
      | none => return base
      | some exponent => return .binary .pow base (← exponent)
    | .awaitPrimary =>
      if n.hasToken .kwAwait then .error n.unsupported
      else n.need .primary (exprAt .primary 0 items)
    | .primary =>
      match exprAt .primary 0 items with
      | none => n.need .atom (exprAt .atom 0 items)
      | some callee =>
        if !n.hasToken .leftParen || n.hasChild .genexp then .error n.unsupported
        else do
          let callee ← callee
          match argsAt .arguments items with
          | none => return .call callee []
          | some args => return .call callee (← args)
    | .atom =>
      match n.atomToken? with
      | some e => e
      | none => n.supported (exprAt .group 0 items)
    | .group => n.supported (exprAt .namedExpression 0 items)
    | _ => .error n.unsupported
  termination_by structural n => n

/-- The expression of the child of production `r` that stands at a position among such children. -/
def exprAt (r : Rule) (index : Nat) : List Item → Option (Except TreeError Expr)
  | [] => none
  | .token _ _ :: rest => exprAt r index rest
  | .node n :: rest =>
    if n.rule = r then
      match index with
      | 0 => some (toExpr n)
      | index + 1 => exprAt r index rest
    else exprAt r index rest
  termination_by structural items => items

/-- The expressions of all children of production `r`, in order. -/
def exprsAt (r : Rule) : List Item → Except TreeError (List Expr)
  | [] => .ok []
  | .token _ _ :: rest => exprsAt r rest
  | .node n :: rest =>
    if n.rule = r then do
      let e ← toExpr n
      let es ← exprsAt r rest
      return e :: es
    else exprsAt r rest
  termination_by structural items => items

/-- The operator and the right operand of a comparison link. -/
def toLink : Node → Except TreeError (BinaryOp × Expr)
  | mk rule items =>
    (mk rule items).supported (linkOperators.findSome? fun p =>
      (exprAt p.1 0 items).map fun e => e.map fun e => (p.2, e))
  termination_by structural n => n

/-- The links of a comparison chain, in order. -/
def linksAt : List Item → Except TreeError (List (BinaryOp × Expr))
  | [] => .ok []
  | .token _ _ :: rest => linksAt rest
  | .node n :: rest =>
    if n.rule = .compareOpBitwiseOrPair then do
      let link ← toLink n
      let links ← linksAt rest
      return link :: links
    else linksAt rest
  termination_by structural items => items

/-- The arguments of a call. Only positional ones are in the language. -/
def toArgs : Node → Except TreeError (List Expr)
  | mk rule items =>
    let n := mk rule items
    match rule with
    | .arguments => n.need .args (argsAt .args items)
    | .args =>
      if n.hasChild .kwargs || n.hasChild .starredExpression || n.hasChild .assignmentExpression
      then .error n.unsupported
      else exprsAt .expression items
    | _ => .error n.unsupported
  termination_by structural n => n

/-- The arguments that the first child of production `r` holds. -/
def argsAt (r : Rule) : List Item → Option (Except TreeError (List Expr))
  | [] => none
  | .token _ _ :: rest => argsAt r rest
  | .node n :: rest => if n.rule = r then some (toArgs n) else argsAt r rest
  termination_by structural items => items

end

/-- The expression that a whole expression node stands for. -/
def expression (n : Node) : Except TreeError Expr :=
  if n.rule = .expression then n.toExpr else .error n.unsupported

/-! ### The sweeps over items -/

/-- The child at a position is read through its expression. -/
theorem exprAt_items (n : Node) (r : Rule) (index : Nat) :
    exprAt r index n.items = (n.child? r index).map toExpr := by
  unfold child? children
  induction n.items generalizing index with
  | nil => simp [exprAt]
  | cons i is ih =>
    cases i with
    | token k s => simpa [exprAt] using ih index
    | node c =>
      by_cases h : c.rule = r
      · cases index with
        | zero => simp [exprAt, h]
        | succ index => simpa [exprAt, h] using ih index
      · simpa [exprAt, h] using ih index

/-- All children of a production are read, each through its expression, up to the first fault. -/
theorem exprsAt_items (n : Node) (r : Rule) :
    exprsAt r n.items = (n.children r).mapM toExpr := by
  unfold children
  induction n.items with
  | nil => rfl
  | cons i is ih =>
    cases i with
    | token k s => simpa [exprsAt] using ih
    | node c => by_cases h : c.rule = r <;> simp [exprsAt, h, ih]

/-- All comparison links are read, each through its operator and operand, up to the first fault. -/
theorem linksAt_items (n : Node) :
    linksAt n.items = (n.children .compareOpBitwiseOrPair).mapM toLink := by
  unfold children
  induction n.items with
  | nil => rfl
  | cons i is ih =>
    cases i with
    | token k s => simpa [linksAt] using ih
    | node c => by_cases h : c.rule = .compareOpBitwiseOrPair <;> simp [linksAt, h, ih]

/-- The first child of a production is read through its arguments. -/
theorem argsAt_items (n : Node) (r : Rule) :
    argsAt r n.items = (n.child? r 0).map toArgs := by
  unfold child? children
  induction n.items with
  | nil => simp [argsAt]
  | cons i is ih =>
    cases i with
    | token k s => simpa [argsAt] using ih
    | node c =>
      by_cases h : c.rule = r
      · simp [argsAt, h]
      · simpa [argsAt, h] using ih

end Node

end ScopeScript
