import ScopeScript.Proofs.Phrase.Sketch
import ScopeScript.Syntax.OfTree.Program

/-!
# Outlines of programs

An outline is a composition of the phrases of the statement grammar over sketches of expressions. It
tells both the parse tree that the phrases build and, piece by piece, the program that they are
meant to spell.

* `Outline.nodes`: the trees that outlines build.
* `Outline.meanings?`: the statements that outlines spell, by structure alone.
* `Outline.ProperAll`: every sketch in the outlines is in order and fits, and neither a line nor an
  assertion is empty.
-/

namespace ScopeScript

/-- A composition of the phrases of a simple statement. -/
inductive Clause where
  | assign (target : String) (value : Sketch)
  | annotated (target : String) (hint : Sketch) (value : Option Sketch)
  | ret (value : Option Sketch)
  | assertion (exprs : List Sketch)
  | pass
  | expr (value : Sketch)

mutual

/-- A composition of the phrases of a statement. -/
inductive Outline where
  | line (clauses : List Clause)
  | cond (condition : Sketch) (body : List Outline) (tail : Tail)
  | funcDef (name : String) (params : List String) (body : List Outline)

/-- What may follow the block of a conditional statement. -/
inductive Tail where
  | none
  | elif (condition : Sketch) (body : List Outline) (tail : Tail)
  | orElse (body : List Outline)

end

/-! ### The tree of an outline -/

/-- The tree that a clause builds. -/
def Clause.node : Clause → Node
  | assign target value => Phrase.assign target value.node
  | annotated target hint value => Phrase.annotated target hint.node (value.map Sketch.node)
  | ret value => Phrase.ret (value.map Sketch.node)
  | assertion exprs => Phrase.assertion (Sketch.nodes exprs)
  | pass => Phrase.pass
  | expr value => Phrase.exprStmt value.node

mutual

/-- The tree that an outline builds. -/
def Outline.node : Outline → Node
  | .line clauses => Phrase.line (clauses.map Clause.node)
  | .cond condition body tail => Phrase.cond condition.node (Outline.nodes body) tail.node?
  | .funcDef name params body => Phrase.funcDef name params (Outline.nodes body)

/-- The trees that several outlines build. -/
def Outline.nodes : List Outline → List Node
  | [] => []
  | o :: os => o.node :: Outline.nodes os

/-- The tree that a tail builds, if there is one. -/
def Tail.node? : Tail → Option Node
  | .none => Option.none
  | .elif condition body tail => some (Phrase.elif condition.node (Outline.nodes body) tail.node?)
  | .orElse body => some (Phrase.orElse (Outline.nodes body))

end

/-! ### The program of an outline -/

/-- The statement that a clause spells. -/
def Clause.meaning? : Clause → Option (Stmt Unit)
  | assign target value => do return .assign target none (some (← value.meaning?))
  | annotated target hint none => do return .assign target (some (← hint.meaning?)) none
  | annotated target hint (some value) => do
    return .assign target (some (← hint.meaning?)) (some (← value.meaning?))
  | ret none => some (.ret none)
  | ret (some value) => do return .ret (some (← value.meaning?))
  | assertion exprs => do
    let es ← Sketch.meanings? exprs
    if es = [] then none else return .assert es
  | pass => some .pass
  | expr value => do return .expr (← value.meaning?)

/-- The statements of one line: a single one as itself, several as a group. -/
def Stmt.ofLine? {δ : Type} : List (Stmt δ) → Option (Stmt δ)
  | [] => none
  | [s] => some s
  | ss => some (.simple ss)

mutual

/-- The statement that an outline spells. -/
def Outline.meaning? : Outline → Option (Stmt Unit)
  | .line clauses => do Stmt.ofLine? (← clauses.mapM Clause.meaning?)
  | .cond condition body tail => do
    return .cond (← condition.meaning?) (← Outline.meanings? body) (← tail.meaning?)
  | .funcDef name params body => do return .funcDef () name params (← Outline.meanings? body)

/-- The statements that several outlines spell. -/
def Outline.meanings? : List Outline → Option (Block Unit)
  | [] => some []
  | o :: os => do return (← o.meaning?) :: (← Outline.meanings? os)

/-- The alternative that a tail spells: none, a block, or for `elif` a block of one more conditional
statement. -/
def Tail.meaning? : Tail → Option (Option (Block Unit))
  | .none => some Option.none
  | .elif condition body tail => do
    return some [.cond (← condition.meaning?) (← Outline.meanings? body) (← tail.meaning?)]
  | .orElse body => do return some (← Outline.meanings? body)

end

/-! ### Proper outlines -/

/-- The sketch is in order, and it and its operands fit their places, its own being that of a whole
expression. -/
structure Sketch.Proper (s : Sketch) : Prop where
  /-- Tokens, literals and lists are in order. -/
  spelled : s.Spelled
  /-- The operands fit their places. -/
  fits : s.Fits
  /-- The sketch fits the place of a whole expression. -/
  within : s.Within .expression

/-- The sketches in a clause. -/
def Clause.sketches : Clause → List Sketch
  | assign _ value | expr value => [value]
  | annotated _ hint value => hint :: value.toList
  | ret value => value.toList
  | assertion exprs => exprs
  | pass => []

/-- The sketches in a clause are proper, and an assertion asserts something. -/
structure Clause.Proper (c : Clause) : Prop where
  /-- Every sketch is proper. -/
  sketches : ∀ s ∈ c.sketches, s.Proper
  /-- An assertion is not empty. -/
  asserts : c ≠ .assertion []

mutual

/-- Every sketch and clause in the outline is proper, and no line is empty. -/
def Outline.Proper : Outline → Prop
  | .line clauses => clauses ≠ [] ∧ ∀ c ∈ clauses, c.Proper
  | .cond condition body tail => condition.Proper ∧ Outline.ProperAll body ∧ tail.Proper
  | .funcDef _ _ body => Outline.ProperAll body

/-- Every sketch and clause in several outlines is proper, and no line is empty. -/
def Outline.ProperAll : List Outline → Prop
  | [] => True
  | o :: os => o.Proper ∧ Outline.ProperAll os

/-- Every sketch and clause in the tail is proper, and no line is empty. -/
def Tail.Proper : Tail → Prop
  | .none => True
  | .elif condition body tail => condition.Proper ∧ Outline.ProperAll body ∧ tail.Proper
  | .orElse body => Outline.ProperAll body

end

end ScopeScript
