import ScopeScript.Proofs.Grammar.Leaves
import ScopeScript.Proofs.Literal.Decimal
import ScopeScript.Proofs.Rendering.Sketch

/-!
# Rereading rendered expressions

The sketch of a plain expression spells the expression, and the text of its tree is the text of the
expression apart from spaces: rendering loses nothing that reading needs.

* `Expr.meaning?_sketch`: the sketch of a plain expression spells it.
* `Expr.inks_sketch`: the leaves of its tree come to the text of the expression, spaces aside.
-/

namespace ScopeScript

/-! ### Meaning -/

namespace Sketch

/-- The expressions that sketches spell with one more behind them. -/
theorem meanings?_append {ss : List Sketch} {s : Sketch} {es : List Expr} {e : Expr}
    (hss : meanings? ss = some es) (hs : s.meaning? = some e) :
    meanings? (ss ++ [s]) = some (es ++ [e]) := by
  induction ss generalizing es with
  | nil =>
    obtain rfl := Option.some.inj hss
    simp [meanings?, hs]
  | cons t ts ih =>
    simp only [meanings?, bind, pure, Option.bind_eq_some_iff, Option.some.injEq] at hss
    obtain ⟨x, hx, xs, hxs, rfl⟩ := hss
    rw [List.cons_append, meanings?, hx, ih hxs]
    rfl

/-- One more operand joins what is joined before it. -/
theorem joined?_append {op : BinaryOp} {ss : List Sketch} {s : Sketch} {x y : Expr}
    (hss : (meanings? ss).bind (Expr.joined? op) = some x) (hs : s.meaning? = some y) :
    (meanings? (ss ++ [s])).bind (Expr.joined? op) = some (.binary op x y) := by
  obtain ⟨es, hes, hjoined⟩ := Option.bind_eq_some_iff.1 hss
  rw [meanings?_append hes hs, Option.bind_some]
  cases es with
  | nil => cases hjoined
  | cons e es =>
    obtain rfl := Option.some.inj hjoined
    rw [List.cons_append, Expr.joined?, List.foldl_append]
    rfl

/-- An operand spells the same in a group. -/
theorem meaning?_operand (least strength : Strength) (s : Sketch) :
    (operand least strength s).meaning? = s.meaning? := by
  rw [operand]
  split <;> rfl

/-- What an operator between its operands spells. -/
theorem meaning?_ofBinary {op : BinaryOp} {a b : Sketch} {x y : Expr} (ha : a.meaning? = some x)
    (hb : b.meaning? = some y) : (ofBinary op a b).meaning? = some (.binary op x y) := by
  cases op with
  | and =>
    rcases joinAnd_cases a b with ⟨s, ss, rfl, h⟩ | ⟨-, h⟩ <;> rw [ofBinary, h]
    -- Joined operands group to the left, so one more behind them is the outermost operator.
    · exact joined?_append ha hb
    · simp [meaning?, meanings?, Expr.joined?, ha, hb]
  | or =>
    rcases joinOr_cases a b with ⟨s, ss, rfl, h⟩ | ⟨-, h⟩ <;> rw [ofBinary, h]
    · exact joined?_append ha hb
    · simp [meaning?, meanings?, Expr.joined?, ha, hb]
  | _ =>
    simp [ofBinary, meaning?, linkMeanings?, Rule.operator?, Rule.linkOperator?, Expr.chain,
      Expr.chainFrom, ha, hb]

end Sketch

namespace Expr

open Sketch

mutual

/-- The sketch of a plain expression spells it. -/
theorem meaning?_sketch : ∀ {e : Expr}, e.Plain → e.sketch.meaning? = some e
  | none, _ => rfl
  | bool true, _ => rfl
  | bool false, _ => rfl
  | int n, h => by rw [sketch, meaning?, Literal.read?_decimal h, Option.map_some]
  | name _, _ => rfl
  | unary op a, h => by
    have ha := (meaning?_operand op.operandStrength a.strength a.sketch).trans
      (meaning?_sketch h.2)
    cases op with
    | star => exact absurd rfl h.1
    | _ => simp [sketch, ofUnary, meaning?, UnaryOp.token, Token.sign?, ha]
  | binary op a b, h => by
    rw [sketch]
    exact meaning?_ofBinary ((meaning?_operand _ _ _).trans (meaning?_sketch h.1))
      ((meaning?_operand _ _ _).trans (meaning?_sketch h.2))
  | ternary b c o, h => by
    simp [sketch, meaning?, meaning?_operand, meaning?_sketch h.1, meaning?_sketch h.2.1,
      meaning?_sketch h.2.2]
  | call f as, h => by
    simp [sketch, meaning?, meaning?_operand, meaning?_sketch h.1, meanings?_sketches h.2]

/-- The sketches of plain expressions spell them. -/
theorem meanings?_sketches : ∀ {es : List Expr}, PlainAll es → meanings? (sketches es) = some es
  | [], _ => rfl
  | _ :: _, h => by
    simp [sketches, meanings?, meaning?_sketch h.1, meanings?_sketches h.2]

end

end Expr

/-! ### Text -/

namespace Text

/-- Texts that are not blank and that come to some characters, spaces aside. -/
structure Inks (ts : List String) (cs : List Char) : Prop where
  /-- None of the texts is blank. -/
  inked : ∀ t ∈ ts, isBlank t = false
  /-- The characters of the texts other than spaces. -/
  chars : ts.flatMap unspaced = cs

namespace Inks

/-- No texts come to nothing. -/
theorem nil : Inks [] [] where
  inked := fun _ h => absurd h List.not_mem_nil
  chars := rfl

/-- A text that is not blank comes before what the others come to. -/
theorem cons {t : String} {ts : List String} {cs : List Char} (ht : isBlank t = false)
    (h : Inks ts cs) : Inks (t :: ts) (unspaced t ++ cs) where
  inked := List.forall_mem_cons.2 ⟨ht, h.inked⟩
  chars := by rw [List.flatMap_cons, h.chars]

/-- A single text that is not blank comes to itself. -/
theorem single {t : String} (ht : isBlank t = false) : Inks [t] (unspaced t) := by
  simpa using cons ht nil

/-- What one list of texts comes to stands before what another comes to. -/
theorem append {ts us : List String} {cs ds : List Char} (ht : Inks ts cs) (hu : Inks us ds) :
    Inks (ts ++ us) (cs ++ ds) where
  inked := fun t h => (List.mem_append.1 h).elim (ht.inked t) (hu.inked t)
  chars := by rw [List.flatMap_append, ht.chars, hu.chars]

/-- What texts come to, they come to when they are spaced. -/
theorem unspaced_spaced {ts : List String} {cs : List Char} (h : Inks ts cs) :
    unspaced (spaced ts) = cs := by
  have hall : Text.inked ts = ts := List.filter_eq_self.2 fun t ht => by simp [h.inked t ht]
  rw [Text.unspaced_spaced, hall, h.chars]

end Inks

/-- A digit is no white space. -/
theorem isWhiteSpace_of_isDigit {c : Char} (h : c.isDigit = true) : isWhiteSpace c = false := by
  have hrange : 48 ≤ c.toNat ∧ c.toNat ≤ 57 := Char.isDigit_iff_toNat.1 h
  simp [isWhiteSpace, whiteSpaceRanges]
  omega

/-- An integer in decimal is not blank. -/
theorem isBlank_decimal {n : Int} (hn : 0 ≤ n) : isBlank (decimal n) = false := by
  obtain ⟨k, rfl⟩ := Int.eq_ofNat_of_zero_le hn
  obtain ⟨d, ds, hds⟩ := List.exists_cons_of_ne_nil (digits_ne_nil k)
  have hd : d.isDigit = true := isDigit_of_mem_digits (hds ▸ List.mem_cons_self)
  have hspace : isWhiteSpace d = false := isWhiteSpace_of_isDigit hd
  have hlist : (decimal k).toList = d :: ds := by
    rw [← hds]
    exact String.toList_ofList
  rw [isBlank, hlist, List.all_cons, hspace, Bool.false_and]

/-- Texts joined by a comma and a space, spaces aside. -/
theorem unspaced_intercalate_comma (t : String) (ts : List String) :
    unspaced (", ".intercalate (t :: ts)) =
      unspaced t ++ ts.flatMap fun u => ',' :: unspaced u := by
  induction ts generalizing t with
  | nil => simp
  | cons u us ih =>
    have hcomma : unspaced ", " = [','] := rfl
    rw [String.intercalate_cons_cons, unspaced_append, unspaced_append, ih, hcomma,
      List.flatMap_cons]
    simp

end Text

namespace BinaryOp

/-- The words that an operator is written in. -/
def words : BinaryOp → List String
  | notIn => ["not", "in"]
  | isNot => ["is", "not"]
  | op => [op.symbol]

/-- The words of an operator come to its symbol. -/
theorem inks_words (op : BinaryOp) : Text.Inks op.words (Text.unspaced op.symbol) := by
  cases op <;> exact ⟨by decide, by decide⟩

end BinaryOp

namespace Sketch

/-- The trees of sketches with one more behind them. -/
theorem nodes_append (ss : List Sketch) (s : Sketch) :
    nodes (ss ++ [s]) = nodes ss ++ [s.node] := by
  induction ss with
  | nil => rfl
  | cons t ts ih => rw [List.cons_append, nodes, ih, nodes, List.cons_append]

/-- The leaves of an operator are its words between those of its operands. -/
theorem leaves_ofBinary (op : BinaryOp) (a b : Sketch) :
    (ofBinary op a b).node.leaves = a.node.leaves ++ op.words ++ b.node.leaves := by
  cases op with
  | and =>
    rcases joinAnd_cases a b with ⟨s, ss, rfl, h⟩ | ⟨-, h⟩ <;> rw [ofBinary, h]
    · simp [node, nodes, nodes_append, Phrase.leaves_conjunction, BinaryOp.words, BinaryOp.symbol]
    · simp [node, nodes, Phrase.leaves_conjunction, BinaryOp.words, BinaryOp.symbol]
  | or =>
    rcases joinOr_cases a b with ⟨s, ss, rfl, h⟩ | ⟨-, h⟩ <;> rw [ofBinary, h]
    · simp [node, nodes, nodes_append, Phrase.leaves_disjunction, BinaryOp.words, BinaryOp.symbol]
    · simp [node, nodes, Phrase.leaves_disjunction, BinaryOp.words, BinaryOp.symbol]
  | eq | notEq | lt | le | gt | ge | isIn | notIn | is | isNot =>
    exact Phrase.leaves_comparison _ _ _
  | _ => simp [ofBinary, node, BinaryOp.words, BinaryOp.symbol, Token.spelling, Token.lexeme?]

/-- The leaves of an operand come to its text, parenthesised or not. -/
theorem inks_operand {s : Sketch} {t : String} (h : Text.Inks s.node.leaves (Text.unspaced t))
    (least strength : Strength) :
    Text.Inks (operand least strength s).node.leaves
      (Text.unspaced (Expr.operandText least strength t)) := by
  rw [operand, Expr.operandText]
  split
  · rw [Text.unspaced_append, Text.unspaced_append, node, Phrase.leaves_group]
    exact (Text.Inks.single rfl).append h |>.append (Text.Inks.single rfl)
  · exact h

end Sketch

namespace Expr

open Sketch

/-- Arguments with a comma between each two come to their texts with commas between. -/
theorem inks_separated {ns : List Node} {ts : List String}
    (h : List.Forall₂ (fun n t => Text.Inks n.leaves (Text.unspaced t)) ns ts) :
    Text.Inks (Item.leavesAll (Phrase.separated .comma (ns.map Phrase.expr)))
      (Text.unspaced (", ".intercalate ts)) := by
  -- After the first argument a comma stands before each.
  have hrest : ∀ {ns ts}, List.Forall₂ (fun n t => Text.Inks n.leaves (Text.unspaced t)) ns ts →
      Text.Inks ((ns.map Phrase.expr).flatMap fun m => Token.comma.spelling :: m.leaves)
        (ts.flatMap fun u => ',' :: Text.unspaced u) := by
    intro ns ts h
    induction h with
    | nil => exact Text.Inks.nil
    | cons hn _ ih =>
      rw [List.map_cons, List.flatMap_cons, List.flatMap_cons, Phrase.expr, Phrase.leaves_lift]
      exact (hn.cons rfl).append ih
  cases h with
  | nil => exact Text.Inks.nil
  | cons hn h =>
    rw [List.map_cons, Phrase.leavesAll_separated, Text.unspaced_intercalate_comma, Phrase.expr,
      Phrase.leaves_lift]
    exact hn.append (hrest h)

mutual

/-- The leaves of the tree for a plain expression come to the text of the expression. -/
theorem inks_sketch : ∀ {e : Expr}, e.Plain →
    Text.Inks e.sketch.node.leaves (Text.unspaced e.render)
  | none, _ => Text.Inks.single rfl
  | bool true, _ => Text.Inks.single rfl
  | bool false, _ => Text.Inks.single rfl
  | int n, h => by
    have hpos : 0 ≤ n.toInt := Int.not_lt.1 (Int64.lt_iff_toInt_lt.not.1 h)
    exact Text.Inks.single (Text.isBlank_decimal hpos)
  | name _, h => Text.Inks.single h
  | unary op a, h => by
    have ha := inks_operand (inks_sketch h.2) op.operandStrength a.strength
    rw [render, Text.unspaced_append]
    cases op with
    | star => exact absurd rfl h.1
    | not =>
      rw [sketch, ofUnary, node, Phrase.leaves_negation]
      exact ha.cons rfl
    | neg | pos | bitNot =>
      simp only [sketch, ofUnary, node, Phrase.leaves_unary]
      exact ha.cons rfl
  | binary op a b, h => by
    have ha := inks_operand (inks_sketch h.1) op.leftStrength a.strength
    have hb := inks_operand (inks_sketch h.2) op.rightStrength b.strength
    -- The operator is written between two spaces, and some operators with a space inside.
    have hspace : Text.unspaced " " = [] := rfl
    rw [sketch, leaves_ofBinary, render]
    simp only [Text.unspaced_append, hspace, List.append_nil]
    exact (ha.append op.inks_words).append hb
  | ternary b c o, h => by
    have hb := inks_operand (inks_sketch h.1) Strength.disjunction b.strength
    have hc := inks_operand (inks_sketch h.2.1) Strength.disjunction c.strength
    have ho := inks_sketch h.2.2
    have hif : Text.unspaced " if " = Text.unspaced "if" := rfl
    have helse : Text.unspaced " else " = Text.unspaced "else" := rfl
    rw [sketch, node, Phrase.leaves_ternary, render]
    simp only [Text.unspaced_append, hif, helse, List.append_assoc]
    exact hb.append ((hc.append (ho.cons rfl)).cons rfl)
  | call f as, h => by
    have hf := inks_operand (inks_sketch h.1) Strength.atom f.strength
    have has := inks_separated (inks_sketches h.2)
    rw [sketch, node, Phrase.leaves_call, render]
    simp only [Text.unspaced_append, List.append_assoc]
    exact hf.append ((has.append (Text.Inks.single rfl)).cons rfl)

/-- The trees of arguments come to their texts one by one. -/
theorem inks_sketches : ∀ {es : List Expr}, PlainAll es →
    List.Forall₂ (fun n t => Text.Inks n.leaves (Text.unspaced t)) (nodes (sketches es))
      (renderAll es)
  | [], _ => .nil
  | _ :: _, h => .cons (inks_sketch h.1) (inks_sketches h.2)

end

/-! ### Rereading -/

/-- The tree for a plain expression, built with a group exactly at each operand that rendering
parenthesises, has the text of the expression apart from spaces and is read as the expression. In it
every operand fits its place, and the inside of every group lies above the place of the group. -/
theorem reread_sketch (e : Expr) (h : e.Plain) :
    Text.unspaced e.sketch.node.text = Text.unspaced e.render ∧
      (Phrase.expr e.sketch.node).expression = .ok e ∧
      Placed .expression e.sketch ∧ e.sketch.Operands Placed := by
  have hplaced : Placed .expression e.sketch :=
    placed_sketch h rfl Rule.noConfusion (Nat.zero_le _)
  have hoperands : e.sketch.Operands Placed := placed_operands_sketch h
  -- The text goes by the leaves of the tree, the reading by what the sketch spells.
  refine ⟨?_, ?_, hplaced, hoperands⟩
  · rw [Node.text_eq_spaced_leaves]
    exact (inks_sketch h).unspaced_spaced
  · have hfits : e.sketch.Fits := operands_imp (fun _ _ hs => hs.within) e.sketch hoperands
    have hreads : e.sketch.node.toExpr = .ok e := toExpr_node e.sketch hfits (meaning?_sketch h)
    rw [Node.expression, Phrase.expr, if_pos (Phrase.rule_lift_of_within hplaced.within),
      Phrase.toExpr_lift, hreads]

/-- Parentheses around the base of a power, a callee and an operand of `and`, next to operands that
need none, are all reread. -/
theorem reread_sketch_of_mixed :
    ∃ e : Expr, e.render = "a and (b or c) and not d or -(-x) ** -2 < (p if q else r)(1, y)" ∧
      e.Plain ∧ Text.unspaced e.sketch.node.text = Text.unspaced e.render ∧
      (Phrase.expr e.sketch.node).expression = .ok e ∧
      Placed .expression e.sketch ∧ e.sketch.Operands Placed := by
  refine ⟨.binary .or
      (.binary .and (.binary .and (.name "a") (.binary .or (.name "b") (.name "c")))
        (.unary .not (.name "d")))
      (.binary .lt
        (.unary .neg (.binary .pow (.unary .neg (.name "x")) (.unary .neg (.int 2))))
        (.call (.ternary (.name "p") (.name "q") (.name "r")) [.int 1, .name "y"])),
    by decide +kernel, ?plain, reread_sketch _ ?plain⟩
  simp only [Plain, PlainAll]
  decide

end Expr

end ScopeScript
