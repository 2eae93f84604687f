import Mathlib.Data.List.Forall2
import Mathlib.Tactic.IntervalCases
import ScopeScript.Proofs.Phrase.Sketch

/-!
# Reading sketches

A sketch whose operands sit in their places is read as the expression that it spells. Lifting a node
is invisible to reading, since each level of the grammar passes on what its single operand is read
as, and brings an operand that fits its place to exactly the production by which the place asks for
it.

* `Phrase.rule_lift_of_within`: a node that fits a place is lifted to the production of the place.
* `Phrase.toExpr_lift`: a lifted node is read as the node itself.

Main statement:

* `Sketch.toExpr_node`: a sketch that fits and spells an expression is read as it.
-/

namespace ScopeScript

/-! ### Levels -/

namespace Rule

/-- The production at a level of the chain. -/
theorem getElem?_chain_of_level? {r : Rule} {l : Nat} (h : r.level? = some l) :
    chain[l]? = some r := by
  obtain ⟨hl, hr, -⟩ := List.findIdx?_eq_some_iff_getElem.1 h
  rw [List.getElem?_eq_getElem hl]
  exact congrArg some (by simpa using hr)

/-- A production sits within a place if both are levels, the first not above the second. -/
theorem within_iff {r place : Rule} :
    r.within place = true ↔
      ∃ low high, r.level? = some low ∧ place.level? = some high ∧ low ≤ high := by
  rw [within]
  split
  · next low high hr hplace => simp [hr, hplace]
  · next h =>
    constructor
    · simp
    · rintro ⟨low, high, hr, hplace, -⟩
      exact absurd hplace (h low high hr)

end Rule

namespace Phrase

open Node

/-- A node that fits a place is lifted to the production of the place. -/
theorem rule_lift_of_within {n : Node} {place : Rule} (h : n.rule.within place = true) :
    (lift n place).rule = place := by
  obtain ⟨low, high, hn, hplace, hle⟩ := Rule.within_iff.1 h
  rcases Nat.lt_or_eq_of_le hle with hlt | rfl
  · exact rule_lift hn hplace hlt
  · rw [lift_eq_self hn hplace (Nat.le_refl low)]
    have hrule := Rule.getElem?_chain_of_level? hn
    rw [Rule.getElem?_chain_of_level? hplace] at hrule
    exact (Option.some.inj hrule).symm

/-- A node wrapped in the next level is read as the node. -/
theorem toExpr_wrap {n : Node} {r : Rule} {l : Nat} (hn : Rule.chain[l]? = some n.rule)
    (hr : Rule.chain[l + 1]? = some r) : (wrap n r).toExpr = n.toExpr := by
  have hl : l < 15 := Nat.lt_of_succ_lt_succ (List.getElem?_eq_some_iff.1 hr).1
  -- Each of the fifteen levels above the atoms passes a single operand on in its own way.
  interval_cases l
  all_goals
    obtain rfl := Option.some.inj hr
    have hrule := (Option.some.inj hn).symm
    simp [wrap, toExpr, exprAt, exprsAt, linksAt, need, joined, hasChild, child?, children,
      hasToken, token?, Item.textOf?, Rule.rightOperand, Expr.chain, hrule]
  all_goals cases n.toExpr <;> rfl

/-- A node wrapped in several levels above its own is read as the node. -/
theorem toExpr_foldl_wrap (k : Nat) {n : Node} {l : Nat} (hn : Rule.chain[l]? = some n.rule) :
    (((Rule.chain.drop (l + 1)).take k).foldl wrap n).toExpr = n.toExpr := by
  induction k generalizing n l with
  | zero => rfl
  | succ k ih =>
    rcases hr : Rule.chain[l + 1]? with - | r
    · rw [List.drop_eq_nil_of_le (List.getElem?_eq_none_iff.1 hr)]
      rfl
    · obtain ⟨hl, hget⟩ := List.getElem?_eq_some_iff.1 hr
      rw [List.drop_eq_getElem_cons hl, hget, List.take_succ_cons, List.foldl_cons]
      exact (ih (n := wrap n r) hr).trans (toExpr_wrap hn hr)

/-- A lifted node is read as the node itself. -/
theorem toExpr_lift (n : Node) (target : Rule) : (lift n target).toExpr = n.toExpr := by
  rw [lift]
  split
  · next low high hn _ => exact toExpr_foldl_wrap _ (Rule.getElem?_chain_of_level? hn)
  · rfl

end Phrase

/-! ### Operands -/

/-- In a place of the grammar, a node spells an expression if it fits the place and is read as the
expression. -/
structure Node.Spells (place : Rule) (n : Node) (e : Expr) : Prop where
  /-- The node fits the place. -/
  fits : n.rule.within place = true
  /-- The node is read as the expression. -/
  reads : n.toExpr = .ok e

/-- A comparison link spells an operator and an expression if its production tells the operator and
its operand spells the expression. -/
structure Node.SpellsLink (link : Rule × Node) (meaning : BinaryOp × Expr) : Prop where
  /-- The production tells the operator. -/
  operator : link.1.linkOperator? = some meaning.1
  /-- The operand spells the expression. -/
  operand : Spells .bitwiseOr link.2 meaning.2

namespace Node.Spells

variable {place : Rule} {n : Node} {e : Expr}

/-- The production of the operand in its place. -/
theorem rule_lift (h : Spells place n e) : (Phrase.lift n place).rule = place :=
  Phrase.rule_lift_of_within h.fits

/-- What the operand in its place is read as. -/
theorem toExpr_lift (h : Spells place n e) : (Phrase.lift n place).toExpr = .ok e :=
  (Phrase.toExpr_lift n place).trans h.reads

/-- Operands with tokens between them are read one after the other. -/
theorem exprsAt_separated {ns : List Node} {es : List Expr}
    (h : List.Forall₂ (Spells place) ns es) (sep : Token) :
    exprsAt place (Phrase.separated sep (ns.map (Phrase.lift · place))) = .ok es := by
  -- After the first operand a token stands before each.
  have hrest : ∀ {ns es}, List.Forall₂ (Spells place) ns es →
      exprsAt place ((ns.map (Phrase.lift · place)).flatMap fun m => [.fixed sep, .node m]) =
        .ok es := by
    intro ns es h
    induction h with
    | nil => rfl
    | cons hn _ ih =>
      rw [List.map_cons, List.flatMap_cons, List.cons_append, Item.fixed, exprsAt,
        List.singleton_append, exprsAt, if_pos hn.rule_lift, hn.toExpr_lift]
      rw [Item.fixed] at ih
      rw [ih]
      rfl
  cases h with
  | nil => rfl
  | cons hn h =>
    rw [List.map_cons, Phrase.separated, exprsAt, if_pos hn.rule_lift, hn.toExpr_lift, hrest h]
    rfl

end Node.Spells

namespace Phrase

open Node

/-! ### Atoms -/

/-- A name is read as itself. -/
theorem toExpr_name (s : String) : (name s).toExpr = .ok (.name s) := by
  simp [name, toExpr, atomToken?, token?, Item.textOf?]

/-- A literal is read as its value. -/
theorem toExpr_number {s : String} {n : Int64} (h : Literal.read? s = some n) :
    (number s).toExpr = .ok (.int n) := by
  simp [number, toExpr, atomToken?, token?, Item.textOf?, h]

/-- A keyword is read as the literal that it spells. -/
theorem toExpr_keyword {k : Token} {e : Expr} (h : k.constant? = some e) :
    (keyword k).toExpr = .ok e := by
  revert h
  cases k <;>
    simp [Token.constant?, keyword, Item.fixed, toExpr, atomToken?, hasToken, token?, Item.textOf?]

/-- A group is read as its inside. -/
theorem toExpr_group {n : Node} {e : Expr} (h : Spells .expression n e) :
    (group n).toExpr = .ok e := by
  simp [group, named, expr, Item.fixed, toExpr, atomToken?, hasToken, token?, Item.textOf?, exprAt,
    supported, h.rule_lift, h.toExpr_lift]

/-! ### Operators and calls -/

/-- A binary operator is read with its operands. -/
theorem toExpr_binary {level : Rule} {op : Token} {binop : BinaryOp} {n m : Node} {a b : Expr}
    (hop : level.operator? op = some binop) (ha : Spells level n a)
    (hb : Spells level.rightOperand m b) :
    (binary level n op m).toExpr = .ok (.binary binop a b) := by
  have hn := ha.rule_lift
  have hm := hb.rule_lift
  have hna := ha.toExpr_lift
  have hmb := hb.toExpr_lift
  clear ha hb
  -- One case for each token of each level. The operator is told by testing for tokens in turn, and
  -- the last one of a level is taken when no test succeeds.
  revert hop
  fun_cases Rule.operator? level op <;> rintro ⟨⟩ <;> simp only [Rule.rightOperand] at hm hmb <;>
    simp [binary, Item.fixed, toExpr, exprAt, need, levelOperator, hasToken, token?, Item.textOf?,
      Rule.rightOperand, hn, hm, hna, hmb] <;>
    rfl

/-- A power is read with its operands. -/
theorem toExpr_power {n m : Node} {a b : Expr} (ha : Spells .awaitPrimary n a)
    (hb : Spells .factor m b) : (power n m).toExpr = .ok (.binary .pow a b) := by
  simp [power, Item.fixed, toExpr, exprAt, need, ha.rule_lift, ha.toExpr_lift, hb.rule_lift,
    hb.toExpr_lift]
  rfl

/-- A sign or complement is read with its operand. -/
theorem toExpr_unary {op : Token} {unop : UnaryOp} {n : Node} {a : Expr}
    (hop : op.sign? = some unop) (ha : Spells .factor n a) :
    (unary op n).toExpr = .ok (.unary unop a) := by
  revert hop
  fun_cases Token.sign? op <;> rintro ⟨⟩ <;>
    simp [unary, Item.fixed, toExpr, exprAt, need, signOperator, hasToken, token?, Item.textOf?,
      ha.rule_lift, ha.toExpr_lift, Except.map]

/-- A negated condition is read with its operand. -/
theorem toExpr_negation {n : Node} {a : Expr} (ha : Spells .inversion n a) :
    (negation n).toExpr = .ok (.unary .not a) := by
  simp [negation, Item.fixed, toExpr, exprAt, ha.rule_lift, ha.toExpr_lift, Except.map]

/-- A choice is read with its parts. -/
theorem toExpr_ternary {n m k : Node} {b c o : Expr} (hb : Spells .disjunction n b)
    (hc : Spells .disjunction m c) (ho : Spells .expression k o) :
    (ternary n m k).toExpr = .ok (.ternary b c o) := by
  simp [ternary, expr, Item.fixed, toExpr, exprAt, need, hasChild, child?, children, hb.rule_lift,
    hb.toExpr_lift, hc.rule_lift, hc.toExpr_lift, ho.rule_lift, ho.toExpr_lift]
  rfl

/-- Operands that are joined, once they are read. -/
theorem joined_ok {n : Node} {operand : Rule} {op : BinaryOp} {es : List Expr} {e : Expr}
    (he : Expr.joined? op es = some e) : n.joined operand op (.ok es) = .ok e := by
  cases es with
  | nil => cases he
  | cons _ _ => exact congrArg Except.ok (Option.some.inj he)

/-- Operands joined by `and` are read as their conjunction, grouped to the left. -/
theorem toExpr_conjunction {ns : List Node} {es : List Expr} {e : Expr}
    (h : List.Forall₂ (Spells .inversion) ns es) (he : Expr.joined? .and es = some e) :
    (conjunction ns).toExpr = .ok e := by
  rw [conjunction, toExpr, Spells.exprsAt_separated h, joined_ok he]

/-- Operands joined by `or` are read as their disjunction, grouped to the left. -/
theorem toExpr_disjunction {ns : List Node} {es : List Expr} {e : Expr}
    (h : List.Forall₂ (Spells .conjunction) ns es) (he : Expr.joined? .or es = some e) :
    (disjunction ns).toExpr = .ok e := by
  rw [disjunction, toExpr, Spells.exprsAt_separated h, joined_ok he]

/-- A comparison link is read as its operator and its operand. -/
theorem toLink_link {r : Rule} {op : BinaryOp} {n : Node} {e : Expr}
    (hlink : SpellsLink (r, n) (op, e)) : (link (r, n)).toLink = .ok (op, e) := by
  obtain ⟨hop, h⟩ := hlink
  revert hop
  fun_cases Rule.linkOperator? r <;> rintro ⟨⟩ <;>
    simp [link, Rule.linkTokens, Item.fixed, toLink, toExpr, exprAt, need, supported, linkOperators,
      h.rule_lift, h.toExpr_lift, Except.map]

/-- The links of a comparison are read one after the other. -/
theorem linksAt_map_link {links : List (Rule × Node)} {ls : List (BinaryOp × Expr)}
    (h : List.Forall₂ SpellsLink links ls) :
    linksAt (links.map fun p => .node (link p)) = .ok ls := by
  induction h with
  | nil => rfl
  | @cons p l _ _ hl _ ih =>
    have hlink : (link p).toLink = .ok l := toLink_link hl
    have hrule : (link p).rule = .compareOpBitwiseOrPair := rfl
    rw [List.map_cons, linksAt, if_pos hrule, hlink, ih]
    rfl

/-- A comparison is read as the chain of its links. -/
theorem toExpr_comparison {n : Node} {a : Expr} {links : List (Rule × Node)}
    {ls : List (BinaryOp × Expr)} (ha : Spells .bitwiseOr n a)
    (h : List.Forall₂ SpellsLink links ls) :
    (comparison n links).toExpr = .ok (a.chain ls) := by
  have hlinks : linksAt (.node (lift n .bitwiseOr) :: links.map fun p => .node (link p)) =
      .ok ls := by
    simp [linksAt, ha.rule_lift, linksAt_map_link h]
  rw [comparison, toExpr, hlinks, exprAt, if_pos ha.rule_lift, ha.toExpr_lift]
  rfl

/-- An item of a separated list is one of the nodes or the token between them. -/
theorem mem_separated {sep : Token} {ns : List Node} {i : Item} (h : i ∈ separated sep ns) :
    i = .fixed sep ∨ ∃ n ∈ ns, i = .node n := by
  cases ns with
  | nil => cases h
  | cons n ns =>
    rcases List.mem_cons.1 h with rfl | h
    · exact .inr ⟨n, List.mem_cons_self, rfl⟩
    · obtain ⟨m, hm, hi⟩ := List.mem_flatMap.1 h
      rcases List.mem_cons.1 hi with rfl | hi
      · exact .inl rfl
      · exact .inr ⟨m, List.mem_cons_of_mem n hm, List.mem_singleton.1 hi⟩

/-- Operands in their places are the only children among the items that separate them. -/
theorem hasChild_separated {place r : Rule} {ns : List Node} {es : List Expr}
    (h : List.Forall₂ (Spells place) ns es) (hr : place ≠ r) (rule : Rule) (sep : Token) :
    (mk rule (separated sep (ns.map (lift · place)))).hasChild r = false := by
  have hplaced : ∀ n ∈ ns, (lift n place).rule = place :=
    ((List.forall₂_and_left _ _).1 (h.imp fun _ _ hn => ⟨hn.rule_lift, hn⟩)).1
  have hnone : Item.childrenOf r (separated sep (ns.map (lift · place))) = [] := by
    refine List.filterMap_eq_nil_iff.2 fun i hi => ?_
    rcases mem_separated hi with rfl | ⟨m, hm, rfl⟩
    · rfl
    · obtain ⟨n, hn, rfl⟩ := List.mem_map.1 hm
      rw [Item.childOf?, hplaced n hn, if_neg hr]
  rw [hasChild, child?, children, items_mk, hnone]
  rfl

/-- Arguments are read one after the other. -/
theorem toArgs_arguments {ns : List Node} {es : List Expr}
    (h : List.Forall₂ (Spells .expression) ns es) :
    (mk .arguments [.node (mk .args (separated .comma (ns.map expr)))]).toArgs = .ok es := by
  have hargs : (mk .args (separated .comma (ns.map (lift · .expression)))).toArgs = .ok es := by
    rw [toArgs]
    -- All arguments are whole expressions, so none is of a form that the language leaves out.
    simp only [hasChild_separated h (r := .kwargs) (by decide),
      hasChild_separated h (r := .starredExpression) (by decide),
      hasChild_separated h (r := .assignmentExpression) (by decide), Bool.or_self,
      Bool.false_eq_true, if_false]
    exact Spells.exprsAt_separated h .comma
  rw [toArgs, argsAt, rule_mk, if_pos rfl, need]
  exact hargs

/-- A call is read with its arguments. -/
theorem toExpr_call {n : Node} {ns : List Node} {f : Expr} {es : List Expr}
    (hf : Spells .primary n f) (h : List.Forall₂ (Spells .expression) ns es) :
    (call n ns).toExpr = .ok (.call f es) := by
  have hargs := toArgs_arguments h
  cases h with
  | nil =>
    -- Without arguments there is no node for them.
    simp [call, callArguments, Item.fixed, toExpr, exprAt, argsAt, hasChild, child?, children,
      hasToken, token?, Item.textOf?, hf.rule_lift, hf.toExpr_lift]
  | cons =>
    rw [call, callArguments]
    · simp [-List.map_cons, Item.fixed, toExpr, exprAt, argsAt, hasChild, child?, children,
        hasToken, token?, Item.textOf?, hf.rule_lift, hf.toExpr_lift, hargs]
      rfl
    · exact List.cons_ne_nil _ _

end Phrase

/-! ### Sketches -/

namespace Sketch

open Phrase

mutual

/-- A sketch that fits and spells an expression is read as it. -/
theorem toExpr_node : ∀ (s : Sketch) {e : Expr}, s.Fits → s.meaning? = some e →
    s.node.toExpr = .ok e
  | name s, e, _, h => by
    obtain rfl := Option.some.inj h
    exact Phrase.toExpr_name s
  | number s, e, _, h => by
    obtain ⟨n, hn, rfl⟩ := Option.map_eq_some_iff.1 h
    exact Phrase.toExpr_number hn
  | keyword k, e, _, h => Phrase.toExpr_keyword h
  | group s, e, hf, h => Phrase.toExpr_group ⟨hf.1, toExpr_node s hf.2 h⟩
  | binary level a op b, e, hf, h => by
    simp only [meaning?, bind, pure, Option.bind_eq_some_iff, Option.some.injEq] at h
    obtain ⟨binop, hop, x, hx, y, hy, rfl⟩ := h
    -- What an operand spells comes from the induction, and its place from the sketch that fits.
    exact Phrase.toExpr_binary hop ⟨hf.1.1, toExpr_node a hf.1.2 hx⟩
      ⟨hf.2.1, toExpr_node b hf.2.2 hy⟩
  | power a b, e, hf, h => by
    simp only [meaning?, bind, pure, Option.bind_eq_some_iff, Option.some.injEq] at h
    obtain ⟨x, hx, y, hy, rfl⟩ := h
    exact Phrase.toExpr_power ⟨hf.1.1, toExpr_node a hf.1.2 hx⟩ ⟨hf.2.1, toExpr_node b hf.2.2 hy⟩
  | unary op a, e, hf, h => by
    simp only [meaning?, bind, pure, Option.bind_eq_some_iff, Option.some.injEq] at h
    obtain ⟨unop, hop, x, hx, rfl⟩ := h
    exact Phrase.toExpr_unary hop ⟨hf.1, toExpr_node a hf.2 hx⟩
  | negation a, e, hf, h => by
    simp only [meaning?, bind, pure, Option.bind_eq_some_iff, Option.some.injEq] at h
    obtain ⟨x, hx, rfl⟩ := h
    exact Phrase.toExpr_negation ⟨hf.1, toExpr_node a hf.2 hx⟩
  | comparison a links, e, hf, h => by
    simp only [meaning?, bind, pure, Option.bind_eq_some_iff, Option.some.injEq] at h
    obtain ⟨x, hx, ls, hls, rfl⟩ := h
    exact Phrase.toExpr_comparison ⟨hf.1.1, toExpr_node a hf.1.2 hx⟩
      (spells_linkNodes links hf.2 hls)
  | conjunction operands, e, hf, h => by
    obtain ⟨es, hes, he⟩ := Option.bind_eq_some_iff.1 h
    exact Phrase.toExpr_conjunction (spells_nodes operands hf hes) he
  | disjunction operands, e, hf, h => by
    obtain ⟨es, hes, he⟩ := Option.bind_eq_some_iff.1 h
    exact Phrase.toExpr_disjunction (spells_nodes operands hf hes) he
  | ternary b c o, e, hf, h => by
    simp only [meaning?, bind, pure, Option.bind_eq_some_iff, Option.some.injEq] at h
    obtain ⟨x, hx, y, hy, z, hz, rfl⟩ := h
    obtain ⟨hb, hc, ho⟩ := hf
    exact Phrase.toExpr_ternary ⟨hb.1, toExpr_node b hb.2 hx⟩ ⟨hc.1, toExpr_node c hc.2 hy⟩
      ⟨ho.1, toExpr_node o ho.2 hz⟩
  | call f args, e, hf, h => by
    simp only [meaning?, bind, pure, Option.bind_eq_some_iff, Option.some.injEq] at h
    obtain ⟨x, hx, es, hes, rfl⟩ := h
    exact Phrase.toExpr_call ⟨hf.1.1, toExpr_node f hf.1.2 hx⟩ (spells_nodes args hf.2 hes)
  | lifted s target, e, hf, h => (Phrase.toExpr_lift s.node target).trans (toExpr_node s hf h)
  termination_by structural s => s

/-- Sketches that fit a place and spell expressions spell them as nodes of the place. -/
theorem spells_nodes : ∀ (ss : List Sketch) {place : Rule} {es : List Expr},
    OperandsAll Within place ss → meanings? ss = some es →
    List.Forall₂ (Node.Spells place) (nodes ss) es
  | [], place, es, _, h => by
    obtain rfl := Option.some.inj h
    exact .nil
  | s :: ss, place, es, hf, h => by
    simp only [meanings?, bind, pure, Option.bind_eq_some_iff, Option.some.injEq] at h
    obtain ⟨x, hx, xs, hxs, rfl⟩ := h
    exact .cons ⟨hf.1.1, toExpr_node s hf.1.2 hx⟩ (spells_nodes ss hf.2 hxs)
  termination_by structural ss => ss

/-- Links whose operands fit and that spell operators and operands spell them as nodes. -/
theorem spells_linkNodes : ∀ (links : List (Rule × Sketch)) {ls : List (BinaryOp × Expr)},
    OperandsLinked Within links → linkMeanings? links = some ls →
    List.Forall₂ Node.SpellsLink (linkNodes links) ls
  | [], ls, _, h => by
    obtain rfl := Option.some.inj h
    exact .nil
  | (r, s) :: links, ls, hf, h => by
    simp only [linkMeanings?, bind, pure, Option.bind_eq_some_iff, Option.some.injEq] at h
    obtain ⟨op, hop, x, hx, xs, hxs, rfl⟩ := h
    exact .cons ⟨hop, hf.1.1, toExpr_node s hf.1.2 hx⟩ (spells_linkNodes links hf.2 hxs)
  termination_by structural links => links

end

end Sketch

end ScopeScript
