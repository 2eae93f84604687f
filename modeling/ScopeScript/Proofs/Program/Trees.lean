import ScopeScript.Proofs.Literal.Decimal
import ScopeScript.Proofs.Program.Image
import ScopeScript.Proofs.Program.Reading
import ScopeScript.Proofs.Rendering.Reread

/-!
# Trees of derivable programs

Every program of the form that reading yields is read from some tree. The tree needs no care about
the levels of the grammar: a group stands around every operand, and a group fits every place. An
unpacking, which no phrase builds, gets a node of its own in the places of values.

* `Expr.grouped`: the sketch of an expression with a group around every operand.
* `Expr.valueTree`: the node of a value.
* `Stmt.tree`: the node of a statement.

Main statements:

* `Expr.Derivable.spells_grouped` and `Stmt.Derivable.stands`: derivable expressions and statements
  are read from their trees.
* `Node.exists_expression_eq_ok_iff`: the expressions that are read from trees are the derivable
  ones.
* `Node.exists_program_eq_ok_iff`: the programs that are read from trees are the derivable ones.
-/

namespace ScopeScript

/-! ### Expressions -/

namespace Sketch

/-- A group fits every place of an expression. -/
theorem within_group (s : Sketch) {place : Rule} (h : place.level?.isSome) :
    Within place (.group s) := by
  obtain ⟨high, hhigh⟩ := Option.isSome_iff_exists.1 h
  -- A group is an atom, the lowest of the levels.
  exact Rule.within_iff.2 ⟨0, high, rfl, hhigh, Nat.zero_le high⟩

end Sketch

namespace Expr

open Sketch

mutual

/-- The sketch of an expression with a group around every operand. -/
def grouped : Expr → Sketch
  | none => .keyword .kwNone
  | bool true => .keyword .kwTrue
  | bool false => .keyword .kwFalse
  | int n => .number (Text.decimal n.toInt)
  | name id => .name id
  | unary op a => ofUnary op (.group a.grouped)
  | binary op a b => ofBinary op (.group a.grouped) (.group b.grouped)
  | ternary b c o => .ternary (.group b.grouped) (.group c.grouped) (.group o.grouped)
  | call f as => .call (.group f.grouped) (groupedAll as)
  termination_by structural e => e

/-- The sketches of several expressions, each with a group around every operand. -/
def groupedAll : List Expr → List Sketch
  | [] => []
  | e :: es => e.grouped :: groupedAll es
  termination_by structural es => es

end

/-- The sketch fits the place of a whole expression. -/
theorem within_grouped (e : Expr) : Within .expression e.grouped := by
  cases e with
  | bool b => cases b <;> rfl
  | unary op a => cases op <;> rfl
  | binary op a b =>
    rw [Within, grouped, rule_ofBinary]
    cases op <;> rfl
  | _ => rfl

mutual

/-- In the sketch, every operand fits its place. -/
theorem fits_grouped : ∀ e : Expr, e.grouped.Fits
  | none | int _ | name _ => trivial
  | bool true | bool false => trivial
  | unary op a => by
    have ha : (Sketch.group a.grouped).Operands Within := ⟨within_grouped a, fits_grouped a⟩
    cases op with
    | not => exact ⟨within_group _ rfl, ha⟩
    | neg | pos | bitNot | star => exact ⟨within_group _ rfl, ha⟩
  | binary op a b => by
    -- The operands of `and` and `or` are groups, so no spine of them is continued.
    have hleft : op.leftPlace.level?.isSome := by cases op <;> rfl
    have hright : op.rightPlace.level?.isSome := by cases op <;> rfl
    rw [grouped]
    exact operands_ofBinary (.inr (within_group _ hleft)) ⟨within_grouped a, fits_grouped a⟩
      (within_group _ hright) ⟨within_grouped b, fits_grouped b⟩
  | ternary b c o =>
    ⟨⟨within_group _ rfl, within_grouped b, fits_grouped b⟩,
      ⟨within_group _ rfl, within_grouped c, fits_grouped c⟩,
      within_group _ rfl, within_grouped o, fits_grouped o⟩
  | call f as =>
    ⟨⟨within_group _ rfl, within_grouped f, fits_grouped f⟩, fits_groupedAll as⟩
  termination_by structural e => e

/-- In the sketches of several expressions, every operand fits its place. -/
theorem fits_groupedAll : ∀ es : List Expr, OperandsAll Within .expression (groupedAll es)
  | [] => trivial
  | e :: es => ⟨⟨within_grouped e, fits_grouped e⟩, fits_groupedAll es⟩
  termination_by structural es => es

end

mutual

/-- The sketch of a derivable expression spells it. -/
theorem meaning?_grouped : ∀ {e : Expr}, e.Derivable → e.grouped.meaning? = some e
  | none, _ => rfl
  | bool true, _ => rfl
  | bool false, _ => rfl
  | int n, h => by rw [grouped, meaning?, Literal.read?_decimal h, Option.map_some]
  | name _, _ => rfl
  | unary op a, h => by
    cases op with
    | star => exact absurd rfl h.1
    | _ => simp [grouped, ofUnary, meaning?, UnaryOp.token, Token.sign?, meaning?_grouped h.2]
  | binary op a b, h => by
    have ha : (Sketch.group a.grouped).meaning? = some a := meaning?_grouped h.1
    have hb : (Sketch.group b.grouped).meaning? = some b := meaning?_grouped h.2
    rw [grouped]
    exact meaning?_ofBinary ha hb
  | ternary b c o, h => by
    simp [grouped, meaning?, meaning?_grouped h.1, meaning?_grouped h.2.1, meaning?_grouped h.2.2]
  | call f as, h => by
    simp [grouped, meaning?, meaning?_grouped h.1, meanings?_groupedAll h.2]

/-- The sketches of derivable expressions spell them. -/
theorem meanings?_groupedAll : ∀ {es : List Expr}, DerivableAll es →
    meanings? (groupedAll es) = some es
  | [], _ => rfl
  | _ :: _, h => by
    simp [groupedAll, meanings?, meaning?_grouped h.1, meanings?_groupedAll h.2]

end

/-- The tree of a derivable expression is read as it. -/
theorem Derivable.spells_grouped {e : Expr} (h : e.Derivable) :
    Node.Spells .expression e.grouped.node e where
  fits := within_grouped e
  reads := toExpr_node e.grouped (fits_grouped e) (meaning?_grouped h)

/-- The trees of derivable expressions are read as they. -/
theorem spells_groupedAll {es : List Expr} (h : ∀ e ∈ es, e.Derivable) :
    List.Forall₂ (Node.Spells .expression) (es.map fun e => e.grouped.node) es := by
  rw [List.forall₂_map_left_iff, List.forall₂_same]
  exact fun e he => (h e he).spells_grouped

end Expr

/-- The expressions that are read from trees are exactly the derivable ones. -/
theorem Node.exists_expression_eq_ok_iff {e : Expr} :
    (∃ n : Node, n.expression = .ok e) ↔ e.Derivable := by
  constructor
  · rintro ⟨n, hn⟩
    rw [expression] at hn
    split at hn
    · next hrule => exact (Rule.yields_iff (by rw [hrule]; rfl)).1 (yields_toExpr n hn)
    · cases hn
  · intro h
    have hspells := h.spells_grouped
    refine ⟨Phrase.expr e.grouped.node, ?_⟩
    rw [expression, Phrase.expr, if_pos hspells.rule_lift]
    exact hspells.toExpr_lift

/-! ### Values -/

/-- The unpacking of an operand. -/
def Phrase.unpacking (operand : Node) : Node :=
  .mk .starExpressions
    [.node (.mk .starExpression [.fixed .star, .node (lift operand .bitwiseOr)])]

/-- An unpacking is read with its operand. -/
theorem Phrase.hasValue_unpacking {n : Node} {a : Expr} (h : Node.Spells .bitwiseOr n a) :
    (unpacking n).HasValue (.unary .star a) where
  rule := rfl
  reads := by
    simp [unpacking, Item.fixed, Node.toExpr, Node.exprAt, Node.need, Node.supported,
      Node.childCount, Node.children, Node.hasToken, Node.token?, Item.textOf?, h.rule_lift,
      h.toExpr_lift, Except.map]

namespace Expr

/-- The node of a value: an unpacking, or an expression in the place of one. -/
def valueTree : Expr → Node
  | unary .star a => Phrase.unpacking (Sketch.group a.grouped).node
  | e => Phrase.starExpressions e.grouped.node

/-- The node of a value is read as it. -/
theorem IsValue.hasValue {e : Expr} (h : e.IsValue) : e.valueTree.HasValue e := by
  cases h with
  | plain h =>
    -- A derivable expression unpacks nothing, so the place of the value holds it as it is.
    have htree : e.valueTree = Phrase.starExpressions e.grouped.node := by
      unfold valueTree
      split
      · exact absurd rfl h.1
      · rfl
    rw [htree]
    exact Phrase.hasValue_starExpressions h.spells_grouped
  | @unpacked a h =>
    -- The operand of an unpacking stands at the level of `|`, where a group fits.
    have hgroup : Node.Spells .bitwiseOr (Sketch.group a.grouped).node a :=
      ⟨Sketch.within_group _ rfl, Phrase.toExpr_group h.spells_grouped⟩
    exact Phrase.hasValue_unpacking hgroup

end Expr

/-! ### Statements -/

namespace Stmt

variable {δ : Type}

/-- The node of a simple statement. -/
def simpleTree : Stmt δ → Node
  | .assign x (some hint) (some v) => Phrase.assignedAs x hint.grouped.node v.valueTree
  | .assign x (some hint) none => Phrase.annotated x hint.grouped.node none
  | .assign x none (some v) => Phrase.assigned x v.valueTree
  | .assert es => Phrase.assertion (es.map fun e => e.grouped.node)
  | .ret (some v) => Phrase.returned v.valueTree
  | .ret none => Phrase.ret none
  | .expr v => Phrase.dropped v.valueTree
  | _ => Phrase.pass

/-- The node of a simple statement is read as it. -/
theorem IsSimple.stands {s : Stmt Unit} (h : s.IsSimple) :
    Node.Stands .simpleStmt s.simpleTree s := by
  cases s with
  | cond | funcDef | simple => exact h.elim
  | assign x hint value =>
    obtain ⟨hbrings, hhint, hvalue⟩ := h
    match hint, value with
    | none, none => exact absurd rfl (hbrings rfl)
    | none, some v => exact Phrase.stands_assigned x (hvalue v rfl).hasValue
    | some a, none => exact Phrase.stands_annotated_none x (hhint a rfl).spells_grouped
    | some a, some v =>
      exact Phrase.stands_assignedAs x (hhint a rfl).spells_grouped (hvalue v rfl).hasValue
  | assert es => exact Phrase.stands_assertion (Expr.spells_groupedAll h.2) h.1
  | ret value =>
    cases value with
    | none => exact Phrase.stands_ret_none
    | some v => exact Phrase.stands_returned (h v rfl).hasValue
  | expr v => exact Phrase.stands_dropped h.hasValue
  | pass => exact Phrase.stands_pass

mutual

/-- The node of a statement, each simple one on a line of its own unless the syntax groups them. -/
def tree : Stmt δ → Node
  | .cond c b .none => Phrase.cond c.grouped.node (treeAll b) none
  | .cond c b (.some o) =>
    Phrase.cond c.grouped.node (treeAll b) (some (Phrase.orElse (treeAll o)))
  | .funcDef _ name params b => Phrase.funcDef name params (treeAll b)
  | .simple ss => Phrase.line (ss.map simpleTree)
  | .assign x hint value => Phrase.line [simpleTree (.assign x hint value : Stmt δ)]
  | .assert es => Phrase.line [simpleTree (.assert es : Stmt δ)]
  | .ret value => Phrase.line [simpleTree (.ret value : Stmt δ)]
  | .expr v => Phrase.line [simpleTree (.expr v : Stmt δ)]
  | .pass => Phrase.line [simpleTree (.pass : Stmt δ)]

/-- The nodes of several statements. -/
def treeAll : List (Stmt δ) → List Node
  | [] => []
  | s :: ss => s.tree :: treeAll ss

end

/-- A simple statement alone on its line is read as it. -/
theorem IsSimple.stands_line {s : Stmt Unit} (h : s.IsSimple) :
    Node.Stands .statement (Phrase.line [s.simpleTree]) s :=
  Phrase.stands_line (.cons h.stands .nil) rfl

/-- Several simple statements on one line are read as their group. -/
theorem stands_simple {ss : List (Stmt Unit)} (hlength : 2 ≤ ss.length)
    (h : ∀ s ∈ ss, s.IsSimple) :
    Node.Stands .statement (Phrase.line (ss.map simpleTree)) (.simple ss) := by
  have hline : ofLine? ss = some (.simple ss) := by
    match ss, hlength with
    | _ :: _ :: _, _ => rfl
  refine Phrase.stands_line ?_ hline
  rw [List.forall₂_map_left_iff, List.forall₂_same]
  exact fun s hs => (h s hs).stands

mutual

/-- The tree of a derivable statement is read as it. -/
theorem Derivable.stands : ∀ {s : Stmt Unit}, s.Derivable → Node.Stands .statement s.tree s
  | .cond _ _ .none, h =>
    Phrase.stands_compound (.inl rfl)
      (Phrase.stands_conditional (.inl rfl) .kwIf h.1.spells_grouped (stands_treeAll h.2) .nothing)
  | .cond _ _ (.some _), h =>
    Phrase.stands_compound (.inl rfl)
      (Phrase.stands_conditional (.inl rfl) .kwIf h.1.spells_grouped (stands_treeAll h.2.1)
        (Phrase.continues_orElse (stands_treeAll h.2.2)))
  | .funcDef () name params _, h => Phrase.stands_funcDef name params (stands_treeAll h)
  | .simple _, h => stands_simple h.1 h.2
  | .assign x hint value, h => IsSimple.stands_line (s := .assign x hint value) h
  | .assert es, h => IsSimple.stands_line (s := .assert es) h
  | .ret value, h => IsSimple.stands_line (s := .ret value) h
  | .expr v, h => IsSimple.stands_line (s := .expr v) h
  | .pass, _ => IsSimple.stands_line (s := .pass) trivial

/-- The trees of derivable statements are read as they. -/
theorem stands_treeAll : ∀ {ss : List (Stmt Unit)}, DerivableAll ss →
    List.Forall₂ (Node.Stands .statement) (treeAll ss) ss
  | [], _ => .nil
  | _ :: _, h => .cons h.1.stands (stands_treeAll h.2)

end

end Stmt

/-! ### Programs -/

/-- The programs that are read from trees are exactly the derivable ones: whatever tree is read,
well formed or not, gives a program of that form, and every program of that form, its names being
any texts, is read from some tree. -/
theorem Node.exists_program_eq_ok_iff (b : Block Unit) :
    (∃ n : Node, n.program = .ok b) ↔ Stmt.DerivableAll b := by
  constructor
  · rintro ⟨n, hn⟩
    exact derivable_program hn
  · intro h
    exact ⟨Phrase.file (Stmt.treeAll b), Phrase.program_file (Stmt.stands_treeAll h)⟩

end ScopeScript
