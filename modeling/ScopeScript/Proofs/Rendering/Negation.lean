import ScopeScript.Proofs.Program.Leaves
import ScopeScript.Proofs.Program.Trees

/-!
# Negative literals

No tree has a literal with a sign, but a host may build an expression that has. It is written as if
a negation stood there: a negative literal binds like a negation, so it has the same parentheses in
every place, and its text is a minus sign before the text of the word without the sign. The one word
that this says nothing about is the least, which has no counterpart without the sign.

* `Expr.withNegations`: an expression with negations in the place of negative literals.
* `Expr.StarFree`: expressions in which nothing is unpacked.
* `Expr.derivable_withNegations_iff`, `Expr.isValue_withNegations_iff`: which expressions become
  derivable by that, and which become values.

Main statements:

* `Expr.negative_literals_as_negations`: negations in the place of negative literals leave the text
  as it is, and make of an expression in which nothing is unpacked one that is read from a tree, of
  an expression and of a program, unless the least word stands in it.
* `Expr.least_word_without_negation`: the least word is written like no negation.
-/

namespace ScopeScript

/-! ### Words and their text -/

/-- Words other than the least are negated without overflow. -/
theorem Word.toInt_neg {n : Int64} (h : n ≠ Int64.minValue) : (-n).toInt = -n.toInt := by
  have hne : n.toInt ≠ Int64.minValue.toInt := fun heq => h (Int64.toInt_inj.1 heq)
  have hlower := Int64.minValue_le_toInt n
  have hupper := Int64.toInt_le n
  rw [Word.toInt_minValue] at hne hlower
  rw [Word.toInt_maxValue] at hupper
  rw [Int64.toInt_neg]
  exact Int.bmod_eq_of_le (by omega) (by omega)

/-- A negative word other than the least has no sign once it is negated. -/
theorem Word.not_neg_neg {n : Int64} (hneg : n < 0) (h : n ≠ Int64.minValue) : ¬ -n < 0 := by
  rw [Int64.lt_iff_toInt_lt, Int64.toInt_zero] at hneg ⊢
  rw [toInt_neg h]
  omega

namespace Text

/-- A negative integer is written as a minus sign before the integer without it. -/
theorem decimal_of_neg {z : Int} (h : z < 0) : decimal z = "-" ++ decimal (-z) := by
  obtain ⟨n, rfl⟩ := Int.eq_negSucc_of_lt_zero h
  rw [Int.neg_negSucc]
  change String.ofList ('-' :: digits (n + 1)) = "-" ++ String.ofList (digits (n + 1))
  exact String.toList_inj.1 (by simp)

/-- Different numbers have different digits. -/
theorem digits_injective {m n : Nat} (h : digits m = digits n) : m = n := by
  rw [← valueOf_digits m, h, valueOf_digits]

/-- No number starts with a minus sign. -/
theorem digits_ne_minus (m : Nat) (ds : List Char) : digits m ≠ '-' :: ds := by
  intro h
  have hdigit : '-'.isDigit = true := isDigit_of_mem_digits (h ▸ List.mem_cons_self)
  exact absurd hdigit (by decide)

/-- Different integers are written differently. -/
theorem decimal_injective {a b : Int} (h : decimal a = decimal b) : a = b := by
  cases a with
  | ofNat m =>
    cases b with
    | ofNat n => exact congrArg Int.ofNat (digits_injective (String.ofList_inj.1 h))
    | negSucc n => exact absurd (String.ofList_inj.1 h) (digits_ne_minus m _)
  | negSucc m =>
    cases b with
    | ofNat n => exact absurd (String.ofList_inj.1 h).symm (digits_ne_minus n _)
    | negSucc n =>
      have hdigits := (List.cons.inj (String.ofList_inj.1 h)).2
      exact congrArg Int.negSucc (Nat.succ.inj (digits_injective hdigits))

end Text

namespace Expr

/-! ### Negations in the place of negative literals -/

/-- A word as trees have it: a negative one is the negation of the word without the sign. The least
word stays as it is, since no word has its value without the sign. -/
def ofWord (n : Int64) : Expr :=
  if n < 0 ∧ n ≠ Int64.minValue then unary .neg (int (-n)) else int n

mutual

/-- An expression with a negation in the place of each negative literal. -/
def withNegations : Expr → Expr
  | none => none
  | bool b => bool b
  | int n => ofWord n
  | name id => name id
  | unary op a => unary op a.withNegations
  | binary op a b => binary op a.withNegations b.withNegations
  | ternary b c o => ternary b.withNegations c.withNegations o.withNegations
  | call f as => call f.withNegations (withNegationsAll as)

/-- Several expressions with a negation in the place of each negative literal. -/
def withNegationsAll : List Expr → List Expr
  | [] => []
  | e :: es => e.withNegations :: withNegationsAll es

end

/-! ### Their text -/

/-- The negation of a word binds like the word with the sign. -/
theorem strength_ofWord (n : Int64) : (ofWord n).strength = (int n).strength := by
  rw [ofWord]
  split
  · next h => rw [strength, strength, if_pos h.1]
  · rfl

/-- The negation of a word is written like the word with the sign. -/
theorem render_ofWord (n : Int64) : (ofWord n).render = (int n).render := by
  rw [ofWord]
  split
  · next h =>
    -- The operand of the negation is an atom, so it is written without parentheses.
    have hstrength : (int (-n)).strength = Strength.atom := by
      rw [strength, if_neg (Word.not_neg_neg h.1 h.2)]
    have hneg : n.toInt < 0 := Int64.lt_iff_toInt_lt.1 h.1
    rw [render, render, render, hstrength, Word.toInt_neg h.2, Text.decimal_of_neg hneg]
    rfl
  · rfl

/-- Negations in the place of negative literals leave the outermost construct as tight as it is. -/
theorem strength_withNegations (e : Expr) : e.withNegations.strength = e.strength := by
  cases e with
  | int n => exact strength_ofWord n
  | _ => rfl

mutual

/-- Negations in the place of negative literals leave the text of an expression as it is. -/
theorem render_withNegations : ∀ e : Expr, e.withNegations.render = e.render
  | none | bool _ | name _ => by rw [withNegations]
  | int n => by rw [withNegations, render_ofWord]
  | unary op a => by
    rw [withNegations, render, render, strength_withNegations, render_withNegations a]
  | binary op a b => by
    rw [withNegations, render, render, strength_withNegations, strength_withNegations,
      render_withNegations a, render_withNegations b]
  | ternary b c o => by
    rw [withNegations, render, render, strength_withNegations, strength_withNegations,
      render_withNegations b, render_withNegations c, render_withNegations o]
  | call f as => by
    rw [withNegations, render, render, strength_withNegations, render_withNegations f,
      renderAll_withNegationsAll as]

/-- Negations in the place of negative literals leave the texts of several expressions as they
are. -/
theorem renderAll_withNegationsAll :
    ∀ es : List Expr, renderAll (withNegationsAll es) = renderAll es
  | [] => rfl
  | e :: es => by
    rw [withNegationsAll, renderAll, renderAll, render_withNegations e,
      renderAll_withNegationsAll es]

end

/-! ### Their trees -/

mutual

/-- An expression in which nothing is unpacked. -/
def StarFree : Expr → Prop
  | none | bool _ | int _ | name _ => True
  | unary op a => op ≠ .star ∧ a.StarFree
  | binary _ a b => a.StarFree ∧ b.StarFree
  | ternary b c o => b.StarFree ∧ c.StarFree ∧ o.StarFree
  | call f as => f.StarFree ∧ StarFreeAll as

/-- Several expressions in which nothing is unpacked. -/
def StarFreeAll : List Expr → Prop
  | [] => True
  | e :: es => e.StarFree ∧ StarFreeAll es

end

/-- Every word but the least is derivable once its sign is an operator. -/
theorem derivable_ofWord_iff {n : Int64} : (ofWord n).Derivable ↔ n ≠ Int64.minValue := by
  by_cases hneg : n < 0
  · by_cases hleast : n = Int64.minValue
    · subst hleast
      simp only [ofWord, ne_eq, not_true_eq_false, and_false, if_false, Derivable, iff_false,
        not_not]
      exact hneg
    · rw [ofWord, if_pos ⟨hneg, hleast⟩]
      exact ⟨fun _ => hleast, fun _ => ⟨UnaryOp.noConfusion, Word.not_neg_neg hneg hleast⟩⟩
  · rw [ofWord, if_neg fun h => hneg h.1]
    refine ⟨fun _ => ?_, fun _ => hneg⟩
    rintro rfl
    exact hneg (by decide)

mutual

/-- With negations in the place of negative literals, an expression is derivable exactly if nothing
is unpacked in it and no literal is the least word. -/
theorem derivable_withNegations_iff : ∀ e : Expr,
    e.withNegations.Derivable ↔ e.StarFree ∧ .number (some Int64.minValue) ∉ e.leaves
  | none | bool _ | name _ => by simp [withNegations, Derivable, StarFree, leaves]
  | int n => by
    rw [withNegations, derivable_ofWord_iff]
    simp [StarFree, leaves, eq_comm]
  | unary op a => by
    rw [withNegations, Derivable, StarFree, leaves, derivable_withNegations_iff a, and_assoc]
  | binary op a b => by
    rw [withNegations, Derivable, StarFree, leaves, derivable_withNegations_iff a,
      derivable_withNegations_iff b, List.mem_append, not_or, and_and_and_comm]
  | ternary b c o => by
    rw [withNegations, Derivable, StarFree, leaves, derivable_withNegations_iff b,
      derivable_withNegations_iff c, derivable_withNegations_iff o, List.mem_append, not_or,
      List.mem_append, not_or]
    tauto
  | call f as => by
    rw [withNegations, Derivable, StarFree, leaves, derivable_withNegations_iff f,
      derivableAll_withNegationsAll_iff as, List.mem_append, not_or, and_and_and_comm]

/-- With negations in the place of negative literals, several expressions are derivable exactly if
nothing is unpacked in them and no literal is the least word. -/
theorem derivableAll_withNegationsAll_iff : ∀ es : List Expr,
    DerivableAll (withNegationsAll es) ↔
      StarFreeAll es ∧ .number (some Int64.minValue) ∉ leavesAll es
  | [] => by simp [withNegationsAll, DerivableAll, StarFreeAll, leavesAll]
  | e :: es => by
    rw [withNegationsAll, DerivableAll, StarFreeAll, leavesAll, derivable_withNegations_iff e,
      derivableAll_withNegationsAll_iff es, List.mem_append, not_or, and_and_and_comm]

end

/-- Negations in the place of negative literals neither unpack an expression nor keep it from being
unpacked. -/
theorem withNegations_eq_star_iff {e b : Expr} :
    e.withNegations = unary .star b ↔ ∃ a, e = unary .star a ∧ a.withNegations = b := by
  cases e with
  | unary op a =>
    rw [withNegations]
    constructor
    · intro h
      obtain ⟨rfl, rfl⟩ := unary.inj h
      exact ⟨a, rfl, rfl⟩
    · rintro ⟨a', h, rfl⟩
      obtain ⟨rfl, rfl⟩ := unary.inj h
      rfl
  | int n =>
    rw [withNegations, ofWord]
    split <;> simp
  | _ => simp [withNegations]

/-- With negations in the place of negative literals, an expression is a value exactly if nothing is
unpacked in it, but for the whole of it, and no literal is the least word. -/
theorem isValue_withNegations_iff {e : Expr} :
    e.withNegations.IsValue ↔
      (e.StarFree ∨ ∃ a, e = unary .star a ∧ a.StarFree) ∧
        .number (some Int64.minValue) ∉ e.leaves := by
  constructor
  · intro h
    generalize heq : e.withNegations = w at h
    cases h with
    | plain h =>
      subst heq
      obtain ⟨hfree, hleast⟩ := (derivable_withNegations_iff e).1 h
      exact ⟨.inl hfree, hleast⟩
    | unpacked h =>
      obtain ⟨a, rfl, rfl⟩ := withNegations_eq_star_iff.1 heq
      obtain ⟨hfree, hleast⟩ := (derivable_withNegations_iff a).1 h
      exact ⟨.inr ⟨a, rfl, hfree⟩, hleast⟩
  · rintro ⟨hfree | ⟨a, rfl, hfree⟩, hleast⟩
    · exact .plain ((derivable_withNegations_iff e).2 ⟨hfree, hleast⟩)
    · exact .unpacked ((derivable_withNegations_iff a).2 ⟨hfree, hleast⟩)

/-- Negative literals are written as negations are. With a negation in the place of each negative
literal but the least word, any expression keeps its text, in whatever places the literals stand. If
nothing is unpacked in it and no literal is the least word, what it becomes is read from the tree of
an expression, and as a statement from the tree of a program. Nothing else is read from the tree of
an expression; from the tree of a program, what is unpacked as a whole is read as well. -/
theorem negative_literals_as_negations (e : Expr) :
    e.withNegations.render = e.render ∧
      ((∃ n : Node, n.expression = .ok e.withNegations) ↔
        e.StarFree ∧ .number (some Int64.minValue) ∉ e.leaves) ∧
      ((∃ n : Node, n.program = .ok [.expr e.withNegations]) ↔
        (e.StarFree ∨ ∃ a, e = unary .star a ∧ a.StarFree) ∧
          .number (some Int64.minValue) ∉ e.leaves) := by
  refine ⟨render_withNegations e, ?_, ?_⟩
  · rw [Node.exists_expression_eq_ok_iff, derivable_withNegations_iff]
  · rw [Node.exists_program_eq_ok_iff, ← isValue_withNegations_iff]
    exact and_iff_left trivial

/-- A negative base has parentheses as a negation has, and a negative exponent has none. -/
example :
    let literals : Expr := .binary .pow (.int (-2)) (.int (-3))
    let negations : Expr := .binary .pow (.unary .neg (.int 2)) (.unary .neg (.int 3))
    literals.withNegations = negations ∧ literals.render = "(-2) ** -3" ∧
      negations.render = "(-2) ** -3" :=
  ⟨rfl, by decide +kernel, by decide +kernel⟩

/-- The least word is no negation: no word has its value without the sign, no negation of a word is
written like it, and it is read from no tree. The tree of its text is at fault for the number behind
the sign. -/
theorem least_word_without_negation :
    (int Int64.minValue).StarFree ∧
      (∀ n : Int64, n.toInt ≠ -Int64.minValue.toInt) ∧
      (∀ n : Int64, (unary .neg (int n)).render ≠ (int Int64.minValue).render) ∧
      (¬ ∃ n : Node, n.expression = .ok (int Int64.minValue)) ∧
      (Phrase.expr (Phrase.unary .minus (Phrase.number "9223372036854775808"))).expression =
        .error (.invalidLiteral "9223372036854775808") := by
  have hvalue : ∀ n : Int64, n.toInt ≠ -Int64.minValue.toInt := by
    intro n
    have hle := Int64.toInt_le n
    rw [Word.toInt_maxValue] at hle
    rw [Word.toInt_minValue]
    omega
  refine ⟨trivial, hvalue, ?_, ?_, by decide +kernel⟩
  · intro n h
    -- A word binds at least as tightly as a negation, so its text stands bare behind the sign.
    have hstrength : ¬ (int n).strength < UnaryOp.neg.operandStrength := by
      rw [strength]
      split <;> decide
    have hbare : (unary .neg (int n)).render = "-" ++ Text.decimal n.toInt := by
      rw [render, operandText, if_neg hstrength, render]
      rfl
    have hleast : Int64.minValue.toInt < 0 := by decide
    rw [hbare, render, Text.decimal_of_neg hleast] at h
    have htext : Text.decimal n.toInt = Text.decimal (-Int64.minValue.toInt) :=
      (String.append_right_inj "-").1 h
    exact hvalue n (Text.decimal_injective htext)
  · rw [Node.exists_expression_eq_ok_iff, Derivable]
    decide

end Expr

end ScopeScript
