import ScopeScript.Syntax.OfTree.Expression

/-!
# Sketches of expressions

A sketch is a composition of the phrases of the expression grammar, nested in any way. It tells both
the parse tree that the phrases build and, piece by piece, the expression that they are meant to
spell. Not every sketch spells one: a token may not belong to its level, a number may be no literal,
and an operand may be looser than its place allows, so that no lifting brings it there.

* `Sketch.node`: the tree that a sketch builds.
* `Sketch.meaning?`: the expression that a sketch spells, by structure alone.
* `Sketch.exists_meaning?`: a sketch spells one if its tokens, literals and lists are in order.
* `Sketch.Operands`: every operand, at any depth, has a property in its place.
* `Sketch.Fits`: every operand sits at or below the grammar level of its place.
-/

namespace ScopeScript

/-- A composition of phrases of the expression grammar. -/
inductive Sketch where
  | name (s : String)
  | number (s : String)
  | keyword (k : Token)
  | group (inner : Sketch)
  | binary (level : Rule) (lhs : Sketch) (op : Token) (rhs : Sketch)
  | power (base exponent : Sketch)
  | unary (op : Token) (operand : Sketch)
  | negation (operand : Sketch)
  | comparison (first : Sketch) (links : List (Rule × Sketch))
  | conjunction (operands : List Sketch)
  | disjunction (operands : List Sketch)
  | ternary (body condition orelse : Sketch)
  | call (callee : Sketch) (args : List Sketch)
  | lifted (inner : Sketch) (target : Rule)

/-! ### The spelling of operators -/

/-- The operator that a token spells at one of the left-recursive levels. -/
def Rule.operator? : Rule → Token → Option BinaryOp
  | .bitwiseOr, .bar => some .bitOr
  | .bitwiseXor, .circumflex => some .bitXor
  | .bitwiseAnd, .ampersand => some .bitAnd
  | .shiftExpr, .leftShift => some .shl
  | .shiftExpr, .rightShift => some .shr
  | .sum, .plus => some .add
  | .sum, .minus => some .sub
  | .term, .star => some .mul
  | .term, .slash => some .div
  | .term, .doubleSlash => some .floorDiv
  | .term, .percent => some .mod
  | .term, .at => some .matMul
  | _, _ => none

/-- Whether a level derives its own left operand: those from `bitwise_or` to `term` do. -/
def Rule.isLeftRecursive : Rule → Bool
  | .bitwiseOr | .bitwiseXor | .bitwiseAnd | .shiftExpr | .sum | .term => true
  | _ => false

/-- The operator of a comparison link. -/
def Rule.linkOperator? : Rule → Option BinaryOp
  | .eqBitwiseOr => some .eq
  | .noteqBitwiseOr => some .notEq
  | .lteBitwiseOr => some .le
  | .ltBitwiseOr => some .lt
  | .gteBitwiseOr => some .ge
  | .gtBitwiseOr => some .gt
  | .notinBitwiseOr => some .notIn
  | .inBitwiseOr => some .isIn
  | .isnotBitwiseOr => some .isNot
  | .isBitwiseOr => some .is
  | _ => none

/-- The sign or complement that a token spells. -/
def Token.sign? : Token → Option UnaryOp
  | .plus => some .pos
  | .minus => some .neg
  | .tilde => some .bitNot
  | _ => none

/-- The literal that a keyword spells. -/
def Token.constant? : Token → Option Expr
  | .kwTrue => some (.bool true)
  | .kwFalse => some (.bool false)
  | .kwNone => some .none
  | _ => none

/-- Whether a production is an expression level at or below another. -/
def Rule.within (r place : Rule) : Bool :=
  match r.level?, place.level? with
  | some low, some high => decide (low ≤ high)
  | _, _ => false

/-- Operands joined by an operator that groups to the left; none without an operand. -/
def Expr.joined? (op : BinaryOp) : List Expr → Option Expr
  | [] => Option.none
  | e :: es => some (es.foldl (.binary op) e)

namespace Sketch

/-! ### The tree of a sketch -/

mutual

/-- The tree that a sketch builds. -/
def node : Sketch → Node
  | name s => Phrase.name s
  | number s => Phrase.number s
  | keyword k => Phrase.keyword k
  | group s => Phrase.group s.node
  | binary level a op b => Phrase.binary level a.node op b.node
  | power a b => Phrase.power a.node b.node
  | unary op a => Phrase.unary op a.node
  | negation a => Phrase.negation a.node
  | comparison a links => Phrase.comparison a.node (linkNodes links)
  | conjunction operands => Phrase.conjunction (nodes operands)
  | disjunction operands => Phrase.disjunction (nodes operands)
  | ternary b c o => Phrase.ternary b.node c.node o.node
  | call f args => Phrase.call f.node (nodes args)
  | lifted s target => Phrase.lift s.node target
  termination_by structural s => s

/-- The trees that several sketches build. -/
def nodes : List Sketch → List Node
  | [] => []
  | s :: ss => s.node :: nodes ss
  termination_by structural ss => ss

/-- The links of a comparison with the trees of their operands. -/
def linkNodes : List (Rule × Sketch) → List (Rule × Node)
  | [] => []
  | (r, s) :: links => (r, s.node) :: linkNodes links
  termination_by structural links => links

end

/-! ### The expression of a sketch -/

mutual

/-- The expression that a sketch spells, if it spells one: the operators of its tokens, without a
trace of groups and lifting, with chains and joined operands grouped to the left. -/
def meaning? : Sketch → Option Expr
  | name s => some (.name s)
  | number s => (Literal.read? s).map .int
  | keyword k => k.constant?
  | group s => s.meaning?
  | binary level a op b => do
    return .binary (← level.operator? op) (← a.meaning?) (← b.meaning?)
  | power a b => do return .binary .pow (← a.meaning?) (← b.meaning?)
  | unary op a => do return .unary (← op.sign?) (← a.meaning?)
  | negation a => do return .unary .not (← a.meaning?)
  | comparison a links => do return (← a.meaning?).chain (← linkMeanings? links)
  | conjunction operands => do Expr.joined? .and (← meanings? operands)
  | disjunction operands => do Expr.joined? .or (← meanings? operands)
  | ternary b c o => do return .ternary (← b.meaning?) (← c.meaning?) (← o.meaning?)
  | call f args => do return .call (← f.meaning?) (← meanings? args)
  | lifted s _ => s.meaning?
  termination_by structural s => s

/-- The expressions that several sketches spell. -/
def meanings? : List Sketch → Option (List Expr)
  | [] => some []
  | s :: ss => do return (← s.meaning?) :: (← meanings? ss)
  termination_by structural ss => ss

/-- The operators and operands that the links of a comparison spell. -/
def linkMeanings? : List (Rule × Sketch) → Option (List (BinaryOp × Expr))
  | [] => some []
  | (r, s) :: links => do return (← r.linkOperator?, ← s.meaning?) :: (← linkMeanings? links)
  termination_by structural links => links

end

mutual

/-- The tokens of a sketch belong to their levels, its numbers are literals, and it joins no empty
lists. -/
def Spelled : Sketch → Prop
  | name _ => True
  | number s => (Literal.read? s).isSome
  | keyword k => k.constant?.isSome
  | group s | negation s => s.Spelled
  | binary level a op b => (level.operator? op).isSome ∧ a.Spelled ∧ b.Spelled
  | power a b => a.Spelled ∧ b.Spelled
  | unary op a => op.sign?.isSome ∧ a.Spelled
  | comparison a links => a.Spelled ∧ SpelledLinked links
  | conjunction operands | disjunction operands => operands ≠ [] ∧ SpelledAll operands
  | ternary b c o => b.Spelled ∧ c.Spelled ∧ o.Spelled
  | call f args => f.Spelled ∧ SpelledAll args
  | lifted s _ => s.Spelled
  termination_by structural s => s

/-- Several sketches are in order. -/
def SpelledAll : List Sketch → Prop
  | [] => True
  | s :: ss => s.Spelled ∧ SpelledAll ss
  termination_by structural ss => ss

/-- The links of a comparison name operators, and their operands are in order. -/
def SpelledLinked : List (Rule × Sketch) → Prop
  | [] => True
  | (r, s) :: links => (r.linkOperator?.isSome ∧ s.Spelled) ∧ SpelledLinked links
  termination_by structural links => links

end

/-- Joined operands spell an expression if there are any. -/
theorem exists_joined? (op : BinaryOp) {ss : List Sketch} (hne : ss ≠ []) {es : List Expr}
    (h : meanings? ss = some es) : ∃ e, (meanings? ss).bind (Expr.joined? op) = some e := by
  cases ss with
  | nil => exact absurd rfl hne
  | cons s ss =>
    simp only [meanings?, bind, pure, Option.bind_eq_some_iff, Option.some.injEq] at h
    obtain ⟨x, hx, xs, hxs, rfl⟩ := h
    exact ⟨xs.foldl (.binary op) x, by simp [meanings?, hx, hxs, Expr.joined?]⟩

mutual

/-- A sketch in order spells an expression. -/
theorem exists_meaning? : ∀ s : Sketch, s.Spelled → ∃ e, s.meaning? = some e
  | name s, _ => ⟨.name s, rfl⟩
  | number s, h => by
    obtain ⟨n, hn⟩ := Option.isSome_iff_exists.1 h
    exact ⟨.int n, by rw [meaning?, hn, Option.map_some]⟩
  | keyword k, h => Option.isSome_iff_exists.1 h
  | group s, h => exists_meaning? s h
  | binary level a op b, h => by
    obtain ⟨binop, hop⟩ := Option.isSome_iff_exists.1 h.1
    obtain ⟨x, hx⟩ := exists_meaning? a h.2.1
    obtain ⟨y, hy⟩ := exists_meaning? b h.2.2
    exact ⟨.binary binop x y, by simp [meaning?, hop, hx, hy]⟩
  | power a b, h => by
    obtain ⟨x, hx⟩ := exists_meaning? a h.1
    obtain ⟨y, hy⟩ := exists_meaning? b h.2
    exact ⟨.binary .pow x y, by simp [meaning?, hx, hy]⟩
  | unary op a, h => by
    obtain ⟨unop, hop⟩ := Option.isSome_iff_exists.1 h.1
    obtain ⟨x, hx⟩ := exists_meaning? a h.2
    exact ⟨.unary unop x, by simp [meaning?, hop, hx]⟩
  | negation a, h => by
    obtain ⟨x, hx⟩ := exists_meaning? a h
    exact ⟨.unary .not x, by simp [meaning?, hx]⟩
  | comparison a links, h => by
    obtain ⟨x, hx⟩ := exists_meaning? a h.1
    obtain ⟨ls, hls⟩ := exists_linkMeanings? links h.2
    exact ⟨x.chain ls, by simp [meaning?, hx, hls]⟩
  | conjunction operands, h => by
    obtain ⟨es, hes⟩ := exists_meanings? operands h.2
    exact exists_joined? .and h.1 hes
  | disjunction operands, h => by
    obtain ⟨es, hes⟩ := exists_meanings? operands h.2
    exact exists_joined? .or h.1 hes
  | ternary b c o, h => by
    obtain ⟨x, hx⟩ := exists_meaning? b h.1
    obtain ⟨y, hy⟩ := exists_meaning? c h.2.1
    obtain ⟨z, hz⟩ := exists_meaning? o h.2.2
    exact ⟨.ternary x y z, by simp [meaning?, hx, hy, hz]⟩
  | call f args, h => by
    obtain ⟨x, hx⟩ := exists_meaning? f h.1
    obtain ⟨es, hes⟩ := exists_meanings? args h.2
    exact ⟨.call x es, by simp [meaning?, hx, hes]⟩
  | lifted s _, h => exists_meaning? s h
  termination_by structural s => s

/-- Sketches in order spell expressions. -/
theorem exists_meanings? : ∀ ss : List Sketch, SpelledAll ss → ∃ es, meanings? ss = some es
  | [], _ => ⟨[], rfl⟩
  | s :: ss, h => by
    obtain ⟨x, hx⟩ := exists_meaning? s h.1
    obtain ⟨xs, hxs⟩ := exists_meanings? ss h.2
    exact ⟨x :: xs, by simp [meanings?, hx, hxs]⟩
  termination_by structural ss => ss

/-- Links in order spell operators and operands. -/
theorem exists_linkMeanings? : ∀ links : List (Rule × Sketch), SpelledLinked links →
    ∃ ls, linkMeanings? links = some ls
  | [], _ => ⟨[], rfl⟩
  | (r, s) :: links, h => by
    obtain ⟨op, hop⟩ := Option.isSome_iff_exists.1 h.1.1
    obtain ⟨x, hx⟩ := exists_meaning? s h.1.2
    obtain ⟨ls, hls⟩ := exists_linkMeanings? links h.2
    exact ⟨(op, x) :: ls, by simp [linkMeanings?, hop, hx, hls]⟩
  termination_by structural links => links

end

/-! ### Operands in their places -/

section

variable (P : Rule → Sketch → Prop)

mutual

/-- Every operand, in the place that its phrase lifts it to, is as required, and so are its own. -/
def Operands : Sketch → Prop
  | name _ | number _ | keyword _ => True
  | group s => P .expression s ∧ s.Operands
  | binary level a _ b => (P level a ∧ a.Operands) ∧ P level.rightOperand b ∧ b.Operands
  | power a b => (P .awaitPrimary a ∧ a.Operands) ∧ P .factor b ∧ b.Operands
  | unary _ a => P .factor a ∧ a.Operands
  | negation a => P .inversion a ∧ a.Operands
  | comparison a links => (P .bitwiseOr a ∧ a.Operands) ∧ OperandsLinked links
  | conjunction operands => OperandsAll .inversion operands
  | disjunction operands => OperandsAll .conjunction operands
  | ternary b c o =>
    (P .disjunction b ∧ b.Operands) ∧ (P .disjunction c ∧ c.Operands) ∧
      P .expression o ∧ o.Operands
  | call f args => (P .primary f ∧ f.Operands) ∧ OperandsAll .expression args
  | lifted s _ => s.Operands
  termination_by structural s => s

/-- Several operands in one place are as required, and so are their own. -/
def OperandsAll (place : Rule) : List Sketch → Prop
  | [] => True
  | s :: ss => (P place s ∧ s.Operands) ∧ OperandsAll place ss
  termination_by structural ss => ss

/-- The operands of comparison links are as required, and so are their own. -/
def OperandsLinked : List (Rule × Sketch) → Prop
  | [] => True
  | (_, s) :: links => (P .bitwiseOr s ∧ s.Operands) ∧ OperandsLinked links
  termination_by structural links => links

end

end

section

variable {P Q : Rule → Sketch → Prop}

mutual

/-- What every operand has, it has in a weaker form. -/
theorem operands_imp (hPQ : ∀ place s, P place s → Q place s) :
    ∀ s : Sketch, s.Operands P → s.Operands Q
  | name _, _ | number _, _ | keyword _, _ => trivial
  | group s, h | unary _ s, h | negation s, h => ⟨hPQ _ s h.1, operands_imp hPQ s h.2⟩
  | binary _ a _ b, h | power a b, h =>
    ⟨⟨hPQ _ a h.1.1, operands_imp hPQ a h.1.2⟩, hPQ _ b h.2.1, operands_imp hPQ b h.2.2⟩
  | comparison a links, h =>
    ⟨⟨hPQ _ a h.1.1, operands_imp hPQ a h.1.2⟩, operandsLinked_imp hPQ links h.2⟩
  | conjunction operands, h | disjunction operands, h => operandsAll_imp hPQ operands h
  | ternary b c o, h =>
    ⟨⟨hPQ _ b h.1.1, operands_imp hPQ b h.1.2⟩, ⟨hPQ _ c h.2.1.1, operands_imp hPQ c h.2.1.2⟩,
      hPQ _ o h.2.2.1, operands_imp hPQ o h.2.2.2⟩
  | call f args, h => ⟨⟨hPQ _ f h.1.1, operands_imp hPQ f h.1.2⟩, operandsAll_imp hPQ args h.2⟩
  | lifted s _, h => operands_imp hPQ s h
  termination_by structural s => s

/-- What several operands have, they have in a weaker form. -/
theorem operandsAll_imp (hPQ : ∀ place s, P place s → Q place s) {place : Rule} :
    ∀ ss : List Sketch, OperandsAll P place ss → OperandsAll Q place ss
  | [], _ => trivial
  | s :: ss, h => ⟨⟨hPQ _ s h.1.1, operands_imp hPQ s h.1.2⟩, operandsAll_imp hPQ ss h.2⟩
  termination_by structural ss => ss

/-- What the operands of links have, they have in a weaker form. -/
theorem operandsLinked_imp (hPQ : ∀ place s, P place s → Q place s) :
    ∀ links : List (Rule × Sketch), OperandsLinked P links → OperandsLinked Q links
  | [], _ => trivial
  | (_, s) :: links, h =>
    ⟨⟨hPQ _ s h.1.1, operands_imp hPQ s h.1.2⟩, operandsLinked_imp hPQ links h.2⟩
  termination_by structural links => links

end

end

/-- An operand sits at or below the grammar level of its place. -/
def Within (place : Rule) (s : Sketch) : Prop :=
  s.node.rule.within place = true

/-- Every operand sits at or below the grammar level that its phrase lifts it to. -/
def Fits (s : Sketch) : Prop :=
  s.Operands Within

end Sketch

end ScopeScript
