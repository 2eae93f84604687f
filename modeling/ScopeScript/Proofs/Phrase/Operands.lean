import Mathlib.Data.List.Flatten
import ScopeScript.Proofs.Phrase.Reading
import ScopeScript.Proofs.Program.Leaves

/-!
# The operands that reading keeps

A phrase does not lift an operand that is looser than its place. Where the place has to be filled,
reading reports it; where it may be empty, as that of an exponent or of a left operand, reading
takes it for empty and passes over the operand. So an expression is read, and yet names and numbers
of the sketch are lost.

* `Sketch.leaves`: the names and the numbers of a sketch.
* `Sketch.leaves_sublist_of_meaning?`: the expression that a sketch spells has them all.

Main statement:

* `Sketch.leaves_kept_iff`: when no name and no number of a sketch is lost.
-/

namespace ScopeScript

/-! ### Leaves of sketches -/

namespace Sketch

mutual

/-- The names and numbers of a sketch, in order. -/
def leaves : Sketch → List Leaf
  | name s => (Token.leaf? .name s).toList
  | number s => (Token.leaf? .number s).toList
  | keyword k => (k.leaf? k.spelling).toList
  | group s | unary _ s | negation s | lifted s _ => s.leaves
  | binary _ a _ b | power a b => a.leaves ++ b.leaves
  | comparison a links => a.leaves ++ leavesLinked links
  | conjunction operands | disjunction operands => leavesAll operands
  | ternary b c o => b.leaves ++ c.leaves ++ o.leaves
  | call f args => f.leaves ++ leavesAll args
  termination_by structural s => s

/-- The names and numbers of several sketches, in order. -/
def leavesAll : List Sketch → List Leaf
  | [] => []
  | s :: ss => s.leaves ++ leavesAll ss
  termination_by structural ss => ss

/-- The names and numbers of the operands of links, in order. -/
def leavesLinked : List (Rule × Sketch) → List Leaf
  | [] => []
  | (_, s) :: links => s.leaves ++ leavesLinked links
  termination_by structural links => links

end

/-- A keyword that spells a literal is no leaf. -/
theorem leaf?_eq_none_of_constant? {k : Token} {e : Expr} (h : k.constant? = some e) :
    k.leaf? k.spelling = none := by
  revert h
  fun_cases Token.constant? k <;> rintro ⟨⟩ <;> rfl

/-- Repetition keeps every operand. -/
theorem sublist_linked {α : Type} : ∀ as : List α, as.Sublist (Expr.linked as)
  | [] => .slnil
  | [a] => List.Sublist.refl [a]
  | a :: b :: rest => ((sublist_linked (b :: rest)).cons a).cons_cons a

/-- Joined operands have all their leaves. -/
theorem leaves_of_joined? {op : BinaryOp} {es : List Expr} {e : Expr}
    (h : Expr.joined? op es = some e) : e.leaves = es.flatMap Expr.leaves := by
  cases es with
  | nil => cases h
  | cons a as => exact Option.some.inj h ▸ Expr.leaves_foldl_binary op a as

mutual

/-- The expression that a sketch spells has all leaves of the sketch, in their order. -/
theorem leaves_sublist_of_meaning? : ∀ (s : Sketch) {e : Expr}, s.meaning? = some e →
    s.leaves.Sublist e.leaves
  | name s, e, h => by
    obtain rfl := Option.some.inj h
    exact List.Sublist.refl _
  | number s, e, h => by
    obtain ⟨n, hn, rfl⟩ := Option.map_eq_some_iff.1 h
    rw [leaves, Token.leaf?, hn]
    exact List.Sublist.refl _
  | keyword k, e, h => by
    rw [leaves, leaf?_eq_none_of_constant? h]
    exact List.nil_sublist _
  | group s, e, h | lifted s _, e, h => leaves_sublist_of_meaning? s h
  | binary level a op b, e, h => by
    simp only [meaning?, bind, pure, Option.bind_eq_some_iff, Option.some.injEq] at h
    obtain ⟨binop, -, x, hx, y, hy, rfl⟩ := h
    exact (leaves_sublist_of_meaning? a hx).append (leaves_sublist_of_meaning? b hy)
  | power a b, e, h => by
    simp only [meaning?, bind, pure, Option.bind_eq_some_iff, Option.some.injEq] at h
    obtain ⟨x, hx, y, hy, rfl⟩ := h
    exact (leaves_sublist_of_meaning? a hx).append (leaves_sublist_of_meaning? b hy)
  | unary op a, e, h => by
    simp only [meaning?, bind, pure, Option.bind_eq_some_iff, Option.some.injEq] at h
    obtain ⟨unop, -, x, hx, rfl⟩ := h
    have ha : a.leaves.Sublist x.leaves := leaves_sublist_of_meaning? a hx
    exact ha
  | negation a, e, h => by
    simp only [meaning?, bind, pure, Option.bind_eq_some_iff, Option.some.injEq] at h
    obtain ⟨x, hx, rfl⟩ := h
    have ha : a.leaves.Sublist x.leaves := leaves_sublist_of_meaning? a hx
    exact ha
  | comparison a links, e, h => by
    simp only [meaning?, bind, pure, Option.bind_eq_some_iff, Option.some.injEq] at h
    obtain ⟨x, hx, ls, hls, rfl⟩ := h
    rw [Expr.leaves_chain]
    have hrepeated : ((ls.map Prod.snd).flatMap Expr.leaves).Sublist
        ((Expr.linked (ls.map Prod.snd)).flatMap Expr.leaves) :=
      (sublist_linked _).flatMap _
    exact (leaves_sublist_of_meaning? a hx).append
      ((leavesLinked_sublist links hls).trans hrepeated)
  | conjunction operands, e, h | disjunction operands, e, h => by
    obtain ⟨es, hes, he⟩ := Option.bind_eq_some_iff.1 h
    rw [leaves_of_joined? he]
    exact leavesAll_sublist operands hes
  | ternary b c o, e, h => by
    simp only [meaning?, bind, pure, Option.bind_eq_some_iff, Option.some.injEq] at h
    obtain ⟨x, hx, y, hy, z, hz, rfl⟩ := h
    exact ((leaves_sublist_of_meaning? b hx).append (leaves_sublist_of_meaning? c hy)).append
      (leaves_sublist_of_meaning? o hz)
  | call f args, e, h => by
    simp only [meaning?, bind, pure, Option.bind_eq_some_iff, Option.some.injEq] at h
    obtain ⟨x, hx, es, hes, rfl⟩ := h
    rw [leaves, Expr.leaves, Expr.leavesAll_eq_flatMap]
    exact (leaves_sublist_of_meaning? f hx).append (leavesAll_sublist args hes)
  termination_by structural s => s

/-- The expressions that several sketches spell have all their leaves, in their order. -/
theorem leavesAll_sublist : ∀ (ss : List Sketch) {es : List Expr}, meanings? ss = some es →
    (leavesAll ss).Sublist (es.flatMap Expr.leaves)
  | [], es, _ => List.nil_sublist _
  | s :: ss, es, h => by
    simp only [meanings?, bind, pure, Option.bind_eq_some_iff, Option.some.injEq] at h
    obtain ⟨x, hx, xs, hxs, rfl⟩ := h
    rw [List.flatMap_cons]
    exact (leaves_sublist_of_meaning? s hx).append (leavesAll_sublist ss hxs)
  termination_by structural ss => ss

/-- The operands that links spell have all their leaves, in their order. -/
theorem leavesLinked_sublist : ∀ (links : List (Rule × Sketch)) {ls : List (BinaryOp × Expr)},
    linkMeanings? links = some ls →
      (leavesLinked links).Sublist ((ls.map Prod.snd).flatMap Expr.leaves)
  | [], ls, _ => List.nil_sublist _
  | (r, s) :: links, ls, h => by
    simp only [linkMeanings?, bind, pure, Option.bind_eq_some_iff, Option.some.injEq] at h
    obtain ⟨op, -, x, hx, rest, hrest, rfl⟩ := h
    rw [List.map_cons, List.flatMap_cons]
    exact (leaves_sublist_of_meaning? s hx).append (leavesLinked_sublist links hrest)
  termination_by structural links => links

end

/-- When no leaf is lost: of a sketch that is read, every name and every number stands in the
expression at least as often exactly if reading takes it up that often. A sketch in order, in which
every operand fits its place, keeps them all and their order. -/
theorem leaves_kept_iff {s : Sketch} {e : Expr} (h : (Phrase.expr s.node).expression = .ok e) :
    ((∀ l, s.leaves.count l ≤ e.leaves.count l) ↔ ∀ l, s.leaves.count l ≤ s.node.taken.count l) ∧
      (s.Spelled → s.Fits → s.leaves.Sublist e.leaves) := by
  have hread : s.node.toExpr = .ok e := by
    rw [Node.expression] at h
    split at h
    · rwa [Phrase.expr, Phrase.toExpr_lift] at h
    · cases h
  refine ⟨by rw [Node.leaves_of_readAs s.node hread], fun hspelled hfits => ?_⟩
  -- A sketch in order is read as the expression that it spells.
  obtain ⟨e', he'⟩ := exists_meaning? s hspelled
  obtain rfl := Except.ok.inj (hread.symm.trans (toExpr_node s hfits he'))
  exact leaves_sublist_of_meaning? s he'

/-- A chain in which an operand stands twice, below a power whose exponent fits its place. -/
theorem leaves_kept_of_chain :
    let s : Sketch := .call (.name "f")
      [.comparison (.name "a") [(.ltBitwiseOr, .name "b"), (.lteBitwiseOr, .number "1_0")],
        .power (.name "b") (.unary .minus (.name "a"))]
    let e : Expr := .call (.name "f")
      [.binary .and (.binary .lt (.name "a") (.name "b")) (.binary .le (.name "b") (.int 10)),
        .binary .pow (.name "b") (.unary .neg (.name "a"))]
    (Phrase.expr s.node).expression = .ok e ∧ s.leaves.Sublist e.leaves := by
  intro s e
  have hread : (Phrase.expr s.node).expression = .ok e := rfl
  have hspelled : s.Spelled := by
    simp only [s, Spelled, SpelledAll, SpelledLinked]
    decide +kernel
  have hfits : s.Fits := by
    simp only [s, Fits, Operands, OperandsAll, OperandsLinked, Within]
    decide
  exact ⟨hread, (leaves_kept_iff hread).2 hspelled hfits⟩

/-- An exponent that is a product is looser than its place, and both its names are lost. -/
theorem leaves_lost_of_exponent :
    let s : Sketch := .power (.name "a") (.binary .term (.name "b") .star (.name "c"))
    (Phrase.expr s.node).expression = .ok (.name "a") ∧
      s.leaves = [.name "a", .name "b", .name "c"] ∧
      ¬ ∀ l, s.leaves.count l ≤ (Expr.name "a").leaves.count l := by
  intro s
  refine ⟨rfl, rfl, fun h => ?_⟩
  exact absurd (h (.name "b")) (by decide)

end Sketch

end ScopeScript
