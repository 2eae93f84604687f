import ScopeScript.Grammar.Node

/-!
# Phrases

Parse trees of the common shapes, as a parser of the grammar emits them. The grammar derives an
operand through sixteen expression levels, each a production over the next tighter one; a phrase is
lifted through the levels that its place asks for.

* `rule_lift`: lifting a node of the chain to a higher level ends at that level.
* `lift_eq_self`: a node that is already as high stays as it is.
-/

namespace ScopeScript

namespace Rule

/-- The levels of the expression grammar, the tightest first. -/
def chain : List Rule :=
  [.atom, .primary, .awaitPrimary, .power, .factor, .term, .sum, .shiftExpr, .bitwiseAnd,
   .bitwiseXor, .bitwiseOr, .comparison, .inversion, .conjunction, .disjunction, .expression]

/-- The position of a production among the expression levels. -/
def level? (r : Rule) : Option Nat :=
  chain.idxOf? r

/-- The level of the right operand of a binary operator at one of the levels from `bitwise_or` to
`term`, where it is the next tighter one. -/
def rightOperand : Rule → Rule
  | .bitwiseOr => .bitwiseXor
  | .bitwiseXor => .bitwiseAnd
  | .bitwiseAnd => .shiftExpr
  | .shiftExpr => .sum
  | .sum => .term
  | _ => .factor

/-- The tokens that spell the operator of a comparison link. -/
def linkTokens : Rule → List Token
  | .eqBitwiseOr => [.equalEqual]
  | .noteqBitwiseOr => [.notEqual]
  | .lteBitwiseOr => [.lessEqual]
  | .ltBitwiseOr => [.less]
  | .gteBitwiseOr => [.greaterEqual]
  | .gtBitwiseOr => [.greater]
  | .notinBitwiseOr => [.kwNot, .kwIn]
  | .inBitwiseOr => [.kwIn]
  | .isnotBitwiseOr => [.kwIs, .kwNot]
  | _ => [.kwIs]

end Rule

/-- A token with its own spelling. -/
def Item.fixed (k : Token) : Item :=
  .token k k.spelling

namespace Phrase

/-! ### Lifting -/

/-- A node of production `r` around a single child. -/
def wrap (inner : Node) (r : Rule) : Node :=
  .mk r [.node inner]

/-- The node wrapped in one parent for each expression level above its own, up to `target`. A node
outside the expression levels, or already at or above `target`, is left as it is. -/
def lift (n : Node) (target : Rule) : Node :=
  match n.rule.level?, target.level? with
  | some low, some high => ((Rule.chain.drop (low + 1)).take (high - low)).foldl wrap n
  | _, _ => n

/-- The node lifted to a whole expression. -/
def expr (n : Node) : Node :=
  lift n .expression

/-- The nodes as items, with a token between each two. -/
def separated (sep : Token) : List Node → List Item
  | [] => []
  | n :: ns => .node n :: ns.flatMap fun m => [.fixed sep, .node m]

/-! ### Atoms -/

/-- A name. -/
def name (s : String) : Node :=
  .mk .atom [.token .name s]

/-- A number, spelled as given. -/
def number (s : String) : Node :=
  .mk .atom [.token .number s]

/-- One of the literals that are keywords. -/
def keyword (k : Token) : Node :=
  .mk .atom [.fixed k]

/-- A named expression without a name: the form that conditions and groups hold. -/
def named (n : Node) : Node :=
  .mk .namedExpression [.node (expr n)]

/-- An expression in parentheses. -/
def group (inner : Node) : Node :=
  .mk .atom [.node (.mk .group [.fixed .leftParen, .node (named inner), .fixed .rightParen])]

/-! ### Operators and calls -/

/-- A binary operator at one of the left-recursive levels. -/
def binary (level : Rule) (lhs : Node) (op : Token) (rhs : Node) : Node :=
  .mk level [.node (lift lhs level), .fixed op, .node (lift rhs level.rightOperand)]

/-- A power. -/
def power (base exponent : Node) : Node :=
  .mk .power [.node (lift base .awaitPrimary), .fixed .doubleStar, .node (lift exponent .factor)]

/-- A sign or a bitwise complement. -/
def unary (op : Token) (operand : Node) : Node :=
  .mk .factor [.fixed op, .node (lift operand .factor)]

/-- A negated condition. -/
def negation (operand : Node) : Node :=
  .mk .inversion [.fixed .kwNot, .node (lift operand .inversion)]

/-- One link of a comparison chain: the production that names its operator, and its right
operand. -/
def link (pair : Rule × Node) : Node :=
  .mk .compareOpBitwiseOrPair
    [.node (.mk pair.1 (pair.1.linkTokens.map .fixed ++ [.node (lift pair.2 .bitwiseOr)]))]

/-- A comparison chain. -/
def comparison (first : Node) (links : List (Rule × Node)) : Node :=
  .mk .comparison (.node (lift first .bitwiseOr) :: links.map fun p => .node (link p))

/-- Operands joined by `and`. -/
def conjunction (operands : List Node) : Node :=
  .mk .conjunction (separated .kwAnd (operands.map (lift · .inversion)))

/-- Operands joined by `or`. -/
def disjunction (operands : List Node) : Node :=
  .mk .disjunction (separated .kwOr (operands.map (lift · .conjunction)))

/-- A choice between two expressions by a condition. -/
def ternary (body condition orelse : Node) : Node :=
  .mk .expression
    [.node (lift body .disjunction), .fixed .kwIf, .node (lift condition .disjunction),
     .fixed .kwElse, .node (expr orelse)]

/-- The items between the parentheses of a call; none if there are no arguments. -/
def callArguments : List Node → List Item
  | [] => []
  | args => [.node (.mk .arguments [.node (.mk .args (separated .comma (args.map expr)))])]

/-- A call. -/
def call (callee : Node) (args : List Node) : Node :=
  .mk .primary
    (.node (lift callee .primary) :: .fixed .leftParen :: callArguments args ++
      [.fixed .rightParen])

/-! ### Simple statements -/

/-- An expression in the place where a list of starred expressions may stand. -/
def starExpressions (value : Node) : Node :=
  .mk .starExpressions [.node (.mk .starExpression [.node (expr value)])]

/-- The target of a plain assignment to a name. -/
def target (name : String) : Node :=
  .mk .starTargets
    [.node (.mk .starTarget
      [.node (.mk .targetWithStarAtom [.node (.mk .starAtom [.token .name name])])])]

/-- An assignment. -/
def assign (name : String) (value : Node) : Node :=
  .mk .simpleStmt
    [.node (.mk .assignment
      [.node (target name), .fixed .equal, .node (starExpressions value)])]

/-- An annotated assignment, or with no value a bare annotation. -/
def annotated (name : String) (hint : Node) (value : Option Node) : Node :=
  let rhs := match value with
    | none => []
    | some v => [.fixed .equal, .node (.mk .annotatedRhs [.node (starExpressions v)])]
  .mk .simpleStmt
    [.node (.mk .assignment ([.token .name name, .fixed .colon, .node (expr hint)] ++ rhs))]

/-- A return, with or without a value. -/
def ret (value : Option Node) : Node :=
  let result := match value with
    | none => []
    | some v => [.node (starExpressions v)]
  .mk .simpleStmt [.node (.mk .returnStmt (.fixed .kwReturn :: result))]

/-- An assertion of one or more expressions. -/
def assertion (exprs : List Node) : Node :=
  .mk .simpleStmt
    [.node (.mk .assertStmt (.fixed .kwAssert :: separated .comma (exprs.map expr)))]

/-- The statement that does nothing. -/
def pass : Node :=
  .mk .simpleStmt [.fixed .kwPass]

/-- An expression as a statement. -/
def exprStmt (value : Node) : Node :=
  .mk .simpleStmt [.node (starExpressions value)]

/-- Simple statements on one line, as a statement. -/
def line (stmts : List Node) : Node :=
  .mk .statement [.node (.mk .simpleStmts (separated .semicolon stmts ++ [.fixed .newline]))]

/-! ### Compound statements -/

/-- Statements one after another. -/
def statements (stmts : List Node) : Node :=
  .mk .statements (stmts.map .node)

/-- An indented block of statements. -/
def block (stmts : List Node) : Node :=
  .mk .block [.fixed .newline, .fixed .indent, .node (statements stmts), .fixed .dedent]

/-- A condition with its block and an optional tail, under the keyword that opens it. -/
def conditional (r : Rule) (opening : Token) (condition : Node) (body : List Node)
    (tail : Option Node) : Node :=
  .mk r ([.fixed opening, .node (named condition), .fixed .colon, .node (block body)] ++
    tail.toList.map .node)

/-- A compound statement, as a statement. -/
def compound (n : Node) : Node :=
  .mk .statement [.node (.mk .compoundStmt [.node n])]

/-- A conditional statement with an optional `elif` or `else` tail. -/
def cond (condition : Node) (body : List Node) (tail : Option Node) : Node :=
  compound (conditional .ifStmt .kwIf condition body tail)

/-- The `elif` tail of a conditional statement. -/
def elif (condition : Node) (body : List Node) (tail : Option Node) : Node :=
  conditional .elifStmt .kwElif condition body tail

/-- The `else` tail of a conditional statement. -/
def orElse (body : List Node) : Node :=
  .mk .elseBlock [.fixed .kwElse, .fixed .colon, .node (block body)]

/-- One plain parameter; a comma closes it. -/
def param (name : String) : Node :=
  .mk .paramNoDefault [.node (.mk .param [.token .name name]), .fixed .comma]

/-- The items between the parentheses of a function's header; none if there are no parameters. -/
def parameters : List String → List Item
  | [] => []
  | params => [.node (.mk .params [.node (.mk .parameters (params.map fun p => .node (param p)))])]

/-- A function definition. -/
def funcDef (name : String) (params : List String) (body : List Node) : Node :=
  compound (.mk .functionDef [.node (.mk .functionDefRaw
    ([.fixed .kwDef, .token .name name, .fixed .leftParen] ++ parameters params ++
      [.fixed .rightParen, .fixed .colon, .node (block body)]))])

/-- A whole program. -/
def file : List Node → Node
  | [] => .mk .fileInput []
  | stmts => .mk .fileInput [.node (statements stmts)]

/-! ### Laws of lifting -/

/-- A node at or above the target's level is not lifted. -/
theorem lift_eq_self {n : Node} {target : Rule} {low high : Nat} (hn : n.rule.level? = some low)
    (ht : target.level? = some high) (h : high ≤ low) : lift n target = n := by
  simp [lift, hn, ht, Nat.sub_eq_zero_of_le h]

/-- The production of a node wrapped in several parents is that of the last. -/
theorem rule_foldl_wrap (rs : List Rule) (n : Node) :
    (rs.foldl wrap n).rule = rs.getLast?.getD n.rule := by
  induction rs generalizing n with
  | nil => rfl
  | cons r rs ih => cases rs <;> simp_all [wrap, List.getLast?_cons]

/-- Lifting a node of the chain to a higher level ends at that level. -/
theorem rule_lift {n : Node} {target : Rule} {low high : Nat} (hn : n.rule.level? = some low)
    (ht : target.level? = some high) (h : low < high) : (lift n target).rule = target := by
  obtain ⟨hlt, hget⟩ : ∃ hlt : high < Rule.chain.length, Rule.chain[high] = target := by
    obtain ⟨hlt, hget, -⟩ := List.findIdx?_eq_some_iff_getElem.1 ht
    exact ⟨hlt, by simpa using hget⟩
  have hlast : ((Rule.chain.drop (low + 1)).take (high - low)).getLast? = some target := by
    rw [List.getLast?_eq_getElem?, List.length_take, List.length_drop, List.getElem?_take,
      List.getElem?_drop]
    have e : low + 1 + (min (high - low) (Rule.chain.length - (low + 1)) - 1) = high := by omega
    have l : min (high - low) (Rule.chain.length - (low + 1)) - 1 < high - low := by omega
    rw [if_pos l, e, List.getElem?_eq_getElem hlt, hget]
  simp only [lift, hn, ht]
  rw [rule_foldl_wrap, hlast, Option.getD_some]

end Phrase

end ScopeScript
