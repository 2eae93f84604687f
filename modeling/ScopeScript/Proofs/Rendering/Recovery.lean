import ScopeScript.Proofs.Rendering.Reader

/-!
# Rendered expressions are read back

The reader of rendered expressions undoes rendering. An operand is read to its end because what
follows it pulls no harder than its right edge takes, and it is not broken off early because the
construct around it takes nothing looser bare: both are what rendering compares before it leaves out
parentheses.

* `Expr.succ_strength_le_edge`: a left operand that stands bare is complete before its operator.
* `Expr.recovered`: the reader comes from the text of an expression to the expression.

Main statement:

* `Expr.read?_render`: the text of an expression is read back as the expression, whatever text that
  continues no expression stands behind it.
-/

namespace ScopeScript

namespace Expr

/-! ### Legible expressions -/

mutual

/-- Whether an expression holds no negative integer and only proper names. -/
def Legible : Expr → Prop
  | none | bool _ => True
  | int n => ¬ n < 0
  | name x => Identifier x
  | unary _ a => a.Legible
  | binary _ a b => a.Legible ∧ b.Legible
  | ternary b c o => b.Legible ∧ c.Legible ∧ o.Legible
  | call f as => f.Legible ∧ LegibleAll as

/-- Whether all of several expressions are legible. -/
def LegibleAll : List Expr → Prop
  | [] => True
  | e :: es => e.Legible ∧ LegibleAll es

end

/-- Several expressions are legible exactly when each is. -/
theorem legibleAll_iff {es : List Expr} : LegibleAll es ↔ ∀ e ∈ es, e.Legible := by
  induction es with
  | nil => simp [LegibleAll]
  | cons e es ih => rw [LegibleAll, ih, List.forall_mem_cons]

/-! ### Right edges -/

/-- The strongest pull that completes every construct on the right edge of an expression. -/
def edge : Expr → Strength
  | unary op a =>
    min op.operandStrength (if a.strength < op.operandStrength then Strength.atom else a.edge)
  | binary op _ b =>
    min op.rightStrength (if b.strength < op.rightStrength then Strength.atom else b.edge)
  | ternary _ _ _ => 0
  | none | bool _ | int _ | name _ | call _ _ => Strength.atom

/-- The right edge of an operand; parentheses close it off. -/
def operandEdge (least : Strength) (e : Expr) : Strength :=
  if e.strength < least then Strength.atom else e.edge

/-- The right edge of an operator applied to one operand. -/
theorem edge_unary (op : UnaryOp) (a : Expr) :
    (unary op a).edge = min op.operandStrength (a.operandEdge op.operandStrength) := by
  rw [edge, operandEdge]

/-- The right edge of an operator between two operands. -/
theorem edge_binary (op : BinaryOp) (a b : Expr) :
    (binary op a b).edge = min op.rightStrength (b.operandEdge op.rightStrength) := by
  rw [edge, operandEdge]

/-- The right edge of an operand takes any pull up to a bound that parentheses and the operand
itself take. -/
theorem le_operandEdge {e : Expr} {q least : Strength} (hatom : q ≤ Strength.atom)
    (h : least ≤ e.strength → q ≤ e.edge) : q ≤ e.operandEdge least := by
  rw [operandEdge]
  split
  · exact hatom
  · next hlt => exact h (Nat.le_of_not_lt hlt)

/-- A right edge takes any pull up to the strength of the expression, but for the sign that an
exponent may carry. -/
theorem min_strength_le_edge (e : Expr) : min e.strength UnaryOp.neg.strength ≤ e.edge := by
  -- By induction along the right edge: the last operand of an operator, if it stands bare.
  induction e using edge.induct with
  | case1 op a ih =>
    have hop : op.strength ≤ op.operandStrength := by cases op <;> decide
    rw [edge_unary]
    refine le_min (le_trans (min_le_left _ _) hop) ?_
    refine le_operandEdge (min_le_of_right_le (by decide)) fun hbare => ?_
    exact le_trans (min_le_min_right _ (le_trans hop hbare)) ih
  | case2 op a b ih =>
    have hop : min op.strength UnaryOp.neg.strength ≤ op.rightStrength := by cases op <;> decide
    rw [edge_binary]
    refine le_min hop (le_operandEdge (min_le_of_right_le (by decide)) ?_)
    intro hbare
    exact le_trans (le_min (le_trans hop hbare) (min_le_right _ _)) ih
  | case3 b c o => exact Nat.min_le_left _ _
  | case6 n =>
    rw [strength, edge]
    split <;> decide
  | _ => exact Nat.min_le_left _ _

/-- Nothing follows an atom or a call too tightly. -/
theorem edge_of_atom_le {e : Expr} (h : Strength.atom ≤ e.strength) : e.edge = Strength.atom := by
  cases e with
  | unary op a => cases op <;> exact absurd h (by simp [strength, UnaryOp.strength, Strength.atom])
  | binary op a b =>
    cases op <;> exact absurd h (by simp [strength, BinaryOp.strength, Strength.atom])
  | ternary b c o => exact absurd h (by simp [strength, Strength.choice, Strength.atom])
  | _ => rfl

/-- What is as strong as an operator other than a power is an operator that takes only tighter
operands on its right. -/
theorem exists_binary_of_strength {e : Expr} {op : BinaryOp} (hop : op ≠ .pow)
    (h : e.strength = op.strength) :
    ∃ op' a b, e = binary op' a b ∧ op'.rightStrength = op.strength + 1 := by
  -- No operator between two operands is as strong as a choice, as `not`, as a sign or as an atom.
  have hother : op.strength ≠ 0 ∧ op.strength ≠ 3 ∧ op.strength ≠ 11 ∧ op.strength ≠ 13 := by
    cases op <;> decide
  obtain ⟨hchoice, hnot, hsign, hatom⟩ := hother
  cases e with
  | binary op' a b =>
    refine ⟨op', a, b, rfl, ?_⟩
    have hpow : op' ≠ .pow := by
      rintro rfl
      have hne : op.strength ≠ BinaryOp.pow.strength := by
        revert hop
        cases op <;> decide
      exact hne h.symm
    rw [BinaryOp.rightStrength, if_neg hpow]
    exact congrArg (· + 1) h
  | unary op' a =>
    cases op' with
    | star => exact absurd h.symm hchoice
    | not => exact absurd h.symm hnot
    | neg | pos | bitNot => exact absurd h.symm hsign
  | int n =>
    rw [strength] at h
    split at h
    · exact absurd h.symm hsign
    · exact absurd h.symm hatom
  | ternary b c o => exact absurd h.symm hchoice
  | _ => exact absurd h.symm hatom

/-- A left operand that stands bare is complete before its operator. -/
theorem succ_strength_le_edge {op : BinaryOp} {e : Expr} (h : op.leftStrength ≤ e.strength) :
    op.strength + 1 ≤ e.edge := by
  by_cases hpow : op = .pow
  · subst hpow
    exact Nat.le_of_eq (edge_of_atom_le h).symm
  have hleft : op.strength ≤ op.leftStrength := by cases op <;> decide
  have hneg : op.strength + 1 ≤ UnaryOp.neg.strength := by
    revert hpow
    cases op <;> decide
  rcases Nat.lt_or_eq_of_le (le_trans hleft h) with hlt | heq
  · exact le_trans (le_min hlt hneg) (min_strength_le_edge e)
  · -- An operator of the same strength takes only tighter operands on its right.
    obtain ⟨op', a, b, rfl, hright⟩ := exists_binary_of_strength hpow heq.symm
    rw [edge_binary, hright]
    refine le_min le_rfl (le_operandEdge (by revert hneg; cases op <;> decide) ?_)
    intro hbare
    exact le_trans (le_min hbare hneg) (min_strength_le_edge b)

end Expr

namespace Reader

open Text (isWordChar isWord)

/-! ### What follows an operand -/

/-- A text that may follow an operand: it does not prolong the operand's last word, and it pulls at
most as hard as the operand's right edge takes. -/
structure Follows (q : Strength) (text : List Char) : Prop where
  /-- The text begins with no character of a word. -/
  parted : text.head?.any isWordChar = false
  /-- The text pulls at most so hard. -/
  pull_le : pull text ≤ q

namespace Follows

/-- A looser pull follows wherever a tighter one does. -/
theorem mono {q q' : Strength} {text : List Char} (h : Follows q text) (hq : q ≤ q') :
    Follows q' text where
  parted := h.parted
  pull_le := le_trans h.pull_le hq

/-- A link follows whatever takes its pull. -/
theorem of_link {l : Link} (hl : l ≠ .operator .isNot) (rest : List Char) :
    Follows l.pull (l.text ++ rest) where
  parted := by cases l <;> rfl
  pull_le := by rw [pull, link?_text hl, Option.elim_some]

end Follows

/-! ### Steps -/

section Steps

variable {frames : List Pending} {e : Expr} {text rest : List Char}

/-- A text that pulls harder than the innermost place takes leaves every construct open. -/
theorem reduce?_of_least_lt (h : least frames < pull text) : reduce? e text frames = none := by
  cases frames with
  | nil => rfl
  | cons f outer => exact if_neg (Nat.not_le_of_lt h)

/-- No open place takes only atoms and calls. -/
theorem least_lt_atom (frames : List Pending) : least frames < Strength.atom := by
  cases frames with
  | nil => decide
  | cons f outer =>
    cases f with
    | unary op =>
      show op.operandStrength < Strength.atom
      cases op <;> decide
    | binary op a =>
      show op.rightStrength < Strength.atom
      cases op <;> decide
    | _ => exact Nat.succ_pos _

/-- A construct that further text is to close stays open. -/
theorem reduce?_of_fill?_eq_none {f : Pending} (h : f.fill? e = none) :
    reduce? e text (f :: frames) = none := by
  rw [reduce?, h, Option.map_none, ite_self]

/-- A link behind an operand that closes no construct is entered. -/
theorem step_link {l : Link} (hl : l ≠ .operator .isNot)
    (h : reduce? e (l.text ++ rest) frames = none) :
    step (.link frames e (l.text ++ rest)) = enter frames e rest l := by
  rw [step, h]
  show (link? (l.text ++ rest)).bind _ = _
  rw [link?_text hl, Option.bind_some, List.drop_left]

/-- A text that does not pull harder than the innermost place takes closes its construct. -/
theorem run_reduce {f : Pending} {e' : Expr} (hfill : f.fill? e = some e')
    (hpull : pull text ≤ f.least) :
    run (.link (f :: frames) e text) = run (.link frames e' text) := by
  refine run_of_step ?_
  rw [step, reduce?, if_pos hpull, hfill, Option.map_some]

/-- A word is cut off before a text that does not prolong it. -/
theorem takeWhile_word {w : List Char} (hw : ∀ c ∈ w, isWordChar c = true)
    (hrest : rest.head?.any isWordChar = false) : (w ++ rest).takeWhile isWordChar = w := by
  rw [List.takeWhile_append_of_pos hw]
  cases rest with
  | nil => exact List.append_nil w
  | cons c cs => rw [List.takeWhile_cons_of_neg (Bool.not_eq_true _ ▸ hrest), List.append_nil]

/-- Behind a word stands the text that does not prolong it. -/
theorem dropWhile_word {w : List Char} (hw : ∀ c ∈ w, isWordChar c = true)
    (hrest : rest.head?.any isWordChar = false) : (w ++ rest).dropWhile isWordChar = rest := by
  rw [List.dropWhile_append_of_pos hw]
  cases rest with
  | nil => rfl
  | cons c cs => rw [List.dropWhile_cons_of_neg (Bool.not_eq_true _ ▸ hrest)]

/-- A word at the place of an operand is read whole. -/
theorem operandStep_word {w : String} (hw : isWord w = true)
    (hrest : rest.head?.any isWordChar = false) :
    operandStep frames (w.toList ++ rest) = wordStep frames w rest := by
  obtain ⟨hne, hword⟩ := Text.isWord_iff.1 hw
  obtain ⟨c, cs, hcs⟩ := List.exists_cons_of_ne_nil hne
  have hc : isWordChar c = true := hword c (hcs ▸ List.mem_cons_self)
  -- The first character is none of the signs and parentheses that may lead an operand.
  unfold operandStep
  split
  case h_7 => rw [takeWhile_word hword hrest, dropWhile_word hword hrest, String.ofList_toList]
  all_goals
    next heq =>
    rw [hcs, List.cons_append] at heq
    cases heq
    cases hc

/-- Outside every construct, the reader stops at a text that pulls at nothing. -/
theorem step_of_pull_eq_zero (h : pull text = 0) : step (.link [] e text) = none := by
  rw [step, reduce?]
  show (link? text).bind _ = none
  cases hl : link? text with
  | none => rfl
  | some l =>
    rw [pull, hl, Option.elim_some] at h
    cases l with
    | comma | close => rfl
    | operator op => exact absurd h (Nat.succ_ne_zero _)
    | condition | orelse | arguments => exact absurd h (Nat.succ_ne_zero _)

/-- An atom at the place of an operand is read. -/
theorem run_atom {w : String} (hatom : atom? w = some e) (hw : isWord w = true)
    (hrest : rest.head?.any isWordChar = false) :
    run (.operand frames (w.toList ++ rest)) = run (.link frames e rest) := by
  have hnot : w ≠ "not" := by
    rintro rfl
    cases hatom
  refine run_of_step ?_
  rw [step, operandStep_word hw hrest, wordStep, if_neg hnot, hatom, Option.map_some]

/-- The word `not` at the place of an operand is read. -/
theorem step_negation :
    step (.operand frames ("not".toList ++ ' ' :: rest)) = negationStep frames (' ' :: rest) := by
  rw [step, operandStep_word rfl rfl, wordStep, if_pos rfl]

/-- An operator is opened by its text, behind `is` too, where no bare `not` may stand. -/
theorem run_unary {op : UnaryOp} (h : least frames ≤ op.strength) :
    run (.operand frames (op.symbol.toList ++ rest)) =
      run (.operand (.unary op :: frames) rest) := by
  refine run_of_step ?_
  cases op with
  | not =>
    refine step_negation.trans ?_
    unfold negationStep
    split
    · -- The right operand of `is` is not bare if it begins with `not`.
      exact absurd (show BinaryOp.is.rightStrength ≤ UnaryOp.not.strength from h) (by decide)
    · next heq =>
      cases heq
      rfl
    · next hne _ => exact absurd rfl (hne rest)
  | _ => rfl

/-- An operator follows whatever takes its pull. -/
theorem follows_operator (op : BinaryOp) (rest : List Char) :
    Follows (op.strength + 1) ((Link.operator op).text ++ rest) := by
  by_cases hop : op = .isNot
  · subst hop
    exact Follows.of_link (l := .operator .is) (by simp) ("not ".toList ++ rest)
  · exact Follows.of_link (l := .operator op) (by simpa using hop) rest

/-- An operator is entered behind its left operand if the innermost place takes it bare. -/
theorem run_operator {op : BinaryOp} (h : least frames ≤ op.strength) :
    run (.link frames e ((Link.operator op).text ++ rest)) =
      run (.operand (.binary op e :: frames) rest) := by
  have hreduce : ∀ op' : BinaryOp, op' ≠ .isNot → op'.strength = op.strength → ∀ text,
      reduce? e ((Link.operator op').text ++ text) frames = none := by
    intro op' hop' hsame text
    refine reduce?_of_least_lt ?_
    rw [pull, link?_text (by simpa using hop'), Option.elim_some]
    show least frames < op'.strength + 1
    rw [hsame]
    exact Nat.lt_succ_of_le h
  by_cases hop : op = .isNot
  · subst hop
    -- The word `is` is entered alone, and `not` behind it completes the operator.
    calc run (.link frames e ((Link.operator .isNot).text ++ rest))
        = run (.operand (.binary .is e :: frames) ("not".toList ++ ' ' :: rest)) :=
          run_of_step (step_link (l := .operator .is) (by simp) (hreduce .is (by simp) rfl _))
      _ = run (.operand (.binary .isNot e :: frames) rest) :=
          run_of_step step_negation
  · exact run_of_step (step_link (by simpa using hop) (hreduce op hop rfl _))

end Steps

end Reader

namespace Expr

open Reader
open Text (isWordChar isWord)

/-! ### Recovery -/

/-- The reader comes from the text of an expression to the expression, in every place that takes the
expression bare and before every text that may follow it. -/
def Recovered (e : Expr) : Prop :=
  ∀ (frames : List Pending) (rest : List Char), least frames ≤ e.strength → Follows e.edge rest →
    run (.operand frames (e.render.toList ++ rest)) = run (.link frames e rest)

section

variable {frames : List Pending} {rest : List Char}

/-- An operand is recovered, bare or in parentheses. -/
theorem Recovered.operand {e : Expr} (h : e.Recovered) {k : Strength} (hleast : least frames ≤ k)
    (hrest : Follows (e.operandEdge k) rest) :
    run (.operand frames ((operandText k e.strength e.render).toList ++ rest)) =
      run (.link frames e rest) := by
  rw [operandEdge] at hrest
  rw [operandText]
  split
  · -- Inside parentheses every expression may stand, and the closing one completes it.
    have hclose : Follows e.edge (Link.close.text ++ rest) :=
      (Follows.of_link (by simp) rest).mono (Nat.zero_le _)
    have htext : ("(" ++ e.render ++ ")").toList ++ rest =
        '(' :: (e.render.toList ++ (Link.close.text ++ rest)) := by
      simp [Link.text]
    calc run (.operand frames (("(" ++ e.render ++ ")").toList ++ rest))
        = run (.operand frames ('(' :: (e.render.toList ++ (Link.close.text ++ rest)))) := by
          rw [htext]
      _ = run (.operand (.group :: frames) (e.render.toList ++ (Link.close.text ++ rest))) :=
          run_of_step rfl
      _ = run (.link (.group :: frames) e (Link.close.text ++ rest)) :=
          h _ _ (Nat.zero_le _) hclose
      _ = run (.link frames e rest) :=
          run_of_step (step_link (by simp) (reduce?_of_fill?_eq_none rfl))
  · next hbare =>
    rw [if_neg hbare] at hrest
    exact h _ _ (le_trans hleast (Nat.le_of_not_lt hbare)) hrest

/-- An operator applied to an operand is recovered if the operand is. -/
theorem recovered_unary {op : UnaryOp} {a : Expr} (ha : a.Recovered) :
    (unary op a).Recovered := by
  intro frames rest hleast hrest
  rw [edge_unary] at hrest
  rw [render, String.toList_append, List.append_assoc]
  calc run (.operand frames (op.symbol.toList ++
          ((operandText op.operandStrength a.strength a.render).toList ++ rest)))
      = run (.operand (.unary op :: frames)
          ((operandText op.operandStrength a.strength a.render).toList ++ rest)) :=
        run_unary hleast
    _ = run (.link (.unary op :: frames) a rest) :=
        ha.operand le_rfl (hrest.mono (min_le_right _ _))
    _ = run (.link frames (unary op a) rest) :=
        run_reduce rfl (le_trans hrest.pull_le (min_le_left _ _))

/-- An operator between two operands is recovered if they are. -/
theorem recovered_binary {op : BinaryOp} {a b : Expr} (ha : a.Recovered) (hb : b.Recovered) :
    (binary op a b).Recovered := by
  intro frames rest hleast hrest
  have hleft : op.strength ≤ op.leftStrength := by cases op <;> decide
  have hatom : op.strength + 1 ≤ Strength.atom := by cases op <;> decide
  have hedge : op.strength + 1 ≤ a.operandEdge op.leftStrength :=
    le_operandEdge hatom succ_strength_le_edge
  rw [edge_binary] at hrest
  have htext : (binary op a b).render.toList ++ rest =
      (operandText op.leftStrength a.strength a.render).toList ++ ((Link.operator op).text ++
        ((operandText op.rightStrength b.strength b.render).toList ++ rest)) := by
    simp [render, Link.text]
  calc run (.operand frames ((binary op a b).render.toList ++ rest))
      = run (.link frames a ((Link.operator op).text ++
          ((operandText op.rightStrength b.strength b.render).toList ++ rest))) := by
        rw [htext]
        exact ha.operand (le_trans hleast hleft) ((follows_operator op _).mono hedge)
    _ = run (.operand (.binary op a :: frames)
          ((operandText op.rightStrength b.strength b.render).toList ++ rest)) :=
        run_operator hleast
    _ = run (.link (.binary op a :: frames) b rest) :=
        hb.operand le_rfl (hrest.mono (min_le_right _ _))
    _ = run (.link frames (binary op a b) rest) :=
        run_reduce rfl (le_trans hrest.pull_le (min_le_left _ _))

/-- A choice is recovered if its parts are. -/
theorem recovered_ternary {b c o : Expr} (hb : b.Recovered) (hc : c.Recovered)
    (ho : o.Recovered) : (ternary b c o).Recovered := by
  intro frames rest hleast hrest
  have hopen : least frames = 0 := Nat.le_zero.1 hleast
  -- Whatever stands bare before `if` or `else` is complete there.
  have hedge : ∀ e : Expr, Link.condition.pull ≤ e.operandEdge Strength.disjunction := by
    intro e
    refine le_operandEdge (by decide) fun hbare => ?_
    exact le_trans (le_min hbare (by decide)) (min_strength_le_edge e)
  have hcondition : reduce? b (Link.condition.text ++ ((operandText Strength.disjunction c.strength
      c.render).toList ++ (Link.orelse.text ++ (o.render.toList ++ rest)))) frames = .none := by
    refine reduce?_of_least_lt ?_
    rw [hopen, pull, link?_text (by simp), Option.elim_some]
    decide
  have htext : (ternary b c o).render.toList ++ rest =
      (operandText Strength.disjunction b.strength b.render).toList ++ (Link.condition.text ++
        ((operandText Strength.disjunction c.strength c.render).toList ++ (Link.orelse.text ++
          (o.render.toList ++ rest)))) := by
    simp [render, Link.text]
  calc run (.operand frames ((ternary b c o).render.toList ++ rest))
      = run (.link frames b (Link.condition.text ++ ((operandText Strength.disjunction c.strength
          c.render).toList ++ (Link.orelse.text ++ (o.render.toList ++ rest))))) := by
        rw [htext]
        exact hb.operand (hopen ▸ Nat.zero_le _) ((Follows.of_link (by simp) _).mono (hedge b))
    _ = run (.operand (.condition b :: frames) ((operandText Strength.disjunction c.strength
          c.render).toList ++ (Link.orelse.text ++ (o.render.toList ++ rest)))) :=
        run_of_step (step_link (by simp) hcondition)
    _ = run (.link (.condition b :: frames) c (Link.orelse.text ++ (o.render.toList ++ rest))) :=
        hc.operand (Nat.zero_le _) ((Follows.of_link (by simp) _).mono (hedge c))
    _ = run (.operand (.orelse b c :: frames) (o.render.toList ++ rest)) :=
        run_of_step (step_link (by simp) (reduce?_of_fill?_eq_none rfl))
    _ = run (.link (.orelse b c :: frames) o rest) :=
        ho _ _ (Nat.zero_le _) (hrest.mono (Nat.zero_le _))
    _ = run (.link frames (ternary b c o) rest) := run_reduce rfl hrest.pull_le

/-- Expressions with a comma between each two are read up to the last one. -/
theorem run_arguments {f e : Expr} {es : List Expr} (hes : ∀ a ∈ es, a.Recovered)
    (he : e.Recovered) (hrest : Follows 0 rest) (before : List Expr) :
    run (.operand (.arguments f before :: frames)
        ((", ".intercalate (renderAll (es ++ [e]))).toList ++ rest)) =
      run (.link (.arguments f (before ++ es) :: frames) e rest) := by
  induction es generalizing before with
  | nil =>
    have htext : (", ".intercalate (renderAll ([] ++ [e]))).toList = e.render.toList := by
      simp [renderAll]
    rw [htext, List.append_nil]
    exact he _ _ (Nat.zero_le _) (hrest.mono (Nat.zero_le _))
  | cons a as ih =>
    -- A comma completes the argument before it and leaves the call open.
    obtain ⟨ha, has⟩ := List.forall_mem_cons.1 hes
    have htext : (", ".intercalate (renderAll (a :: as ++ [e]))).toList ++ rest =
        a.render.toList ++ (Link.comma.text ++
          ((", ".intercalate (renderAll (as ++ [e]))).toList ++ rest)) := by
      obtain ⟨b, bs, hbs⟩ := List.exists_cons_of_ne_nil (show as ++ [e] ≠ [] by simp)
      rw [List.cons_append, hbs, renderAll, renderAll, String.intercalate_cons_cons]
      simp [Link.text]
    rw [htext]
    calc run (.operand (.arguments f before :: frames) (a.render.toList ++ (Link.comma.text ++
            ((", ".intercalate (renderAll (as ++ [e]))).toList ++ rest))))
        = run (.link (.arguments f before :: frames) a (Link.comma.text ++
            ((", ".intercalate (renderAll (as ++ [e]))).toList ++ rest))) :=
          ha _ _ (Nat.zero_le _) ((Follows.of_link (by simp) _).mono (Nat.zero_le _))
      _ = run (.operand (.arguments f (before ++ [a]) :: frames)
            ((", ".intercalate (renderAll (as ++ [e]))).toList ++ rest)) :=
          run_of_step (step_link (by simp) (reduce?_of_fill?_eq_none rfl))
      _ = run (.link (.arguments f (before ++ a :: as) :: frames) e rest) := by
          rw [ih has, List.append_assoc, List.singleton_append]

/-- A call is recovered if its callee and its arguments are. -/
theorem recovered_call {f : Expr} {as : List Expr} (hf : f.Recovered)
    (has : ∀ a ∈ as, a.Recovered) : (call f as).Recovered := by
  intro frames rest hleast hrest
  have hedge : Link.arguments.pull ≤ f.operandEdge Strength.atom :=
    le_operandEdge le_rfl fun hbare => Nat.le_of_eq (edge_of_atom_le hbare).symm
  -- Arguments pull harder than any place takes, so they belong to the callee alone.
  have hopen : ∀ text, reduce? f (Link.arguments.text ++ text) frames = .none := by
    intro text
    refine reduce?_of_least_lt ?_
    rw [pull, link?_text (by simp), Option.elim_some]
    exact least_lt_atom frames
  have hclose : Follows 0 (Link.close.text ++ rest) := Follows.of_link (l := .close) (by simp) rest
  have htext : (call f as).render.toList ++ rest =
      (operandText Strength.atom f.strength f.render).toList ++ (Link.arguments.text ++
        ((", ".intercalate (renderAll as)).toList ++ (Link.close.text ++ rest))) := by
    simp [render, Link.text]
  calc run (.operand frames ((call f as).render.toList ++ rest))
      = run (.link frames f (Link.arguments.text ++
          ((", ".intercalate (renderAll as)).toList ++ (Link.close.text ++ rest)))) := by
        rw [htext]
        exact hf.operand hleast ((Follows.of_link (by simp) _).mono hedge)
    _ = run (.operand (.arguments f [] :: frames)
          ((", ".intercalate (renderAll as)).toList ++ (Link.close.text ++ rest))) :=
        run_of_step (step_link (by simp) (hopen _))
    _ = run (.link frames (call f as) rest) := by
        rcases List.eq_nil_or_concat as with rfl | ⟨es, e, rfl⟩
        · exact run_of_step rfl
        · rw [List.concat_eq_append] at has ⊢
          rw [run_arguments (fun a ha => has a (List.mem_append_left _ ha))
            (has e (List.mem_append_right _ List.mem_cons_self)) hclose, List.nil_append]
          exact run_of_step (step_link (by simp) (reduce?_of_fill?_eq_none rfl))

end

/-- A word that spells an atom is recovered. -/
theorem recovered_of_atom? {e : Expr} (hatom : atom? e.render = some e)
    (hword : isWord e.render = true) : e.Recovered :=
  fun _ _ _ hrest => run_atom hatom hword hrest.parted

/-- The text of an integer that is not negative is a word. -/
theorem isWord_decimal {n : Int64} (hn : ¬ n < 0) : isWord (Text.decimal n.toInt) = true := by
  have hpos : 0 ≤ n.toInt := Int.not_lt.1 (Int64.lt_iff_toInt_lt.not.1 hn)
  obtain ⟨k, hk⟩ := Int.eq_ofNat_of_zero_le hpos
  have hdigits : (Text.decimal n.toInt).toList = Text.digits k := by simp [hk, Text.decimal]
  rw [Text.isWord_iff, hdigits]
  refine ⟨Text.digits_ne_nil k, fun c hc => ?_⟩
  have hdigit : c.isDigit = true := Text.isDigit_of_mem_digits hc
  simp [isWordChar, Char.isAlphanum, hdigit]

/-- An integer that is not negative is recovered. -/
theorem recovered_int {n : Int64} (hn : ¬ n < 0) : (int n).Recovered :=
  recovered_of_atom? (atom?_decimal hn) (isWord_decimal hn)

mutual

/-- The reader comes from the text of a legible expression to the expression. -/
theorem recovered : ∀ {e : Expr}, e.Legible → e.Recovered
  | none, _ => recovered_of_atom? rfl rfl
  | bool true, _ => recovered_of_atom? rfl rfl
  | bool false, _ => recovered_of_atom? rfl rfl
  | int _, h => recovered_int h
  | name _, h => recovered_of_atom? (atom?_of_identifier h) h.isWord
  | unary _ _, h => recovered_unary (recovered h)
  | binary _ _ _, h => recovered_binary (recovered h.1) (recovered h.2)
  | ternary _ _ _, h => recovered_ternary (recovered h.1) (recovered h.2.1) (recovered h.2.2)
  | call _ _, h => recovered_call (recovered h.1) (recovered_of_mem h.2)

/-- The reader comes from the text of each of several legible expressions to the expression. -/
theorem recovered_of_mem : ∀ {es : List Expr}, LegibleAll es → ∀ e ∈ es, e.Recovered
  | [], _, _, he => absurd he List.not_mem_nil
  | _ :: _, h, _, he =>
    (List.mem_cons.1 he).elim (fun heq => heq ▸ recovered h.1) (recovered_of_mem h.2 _)

end

/-- The text of a legible expression is read back as the expression, whatever text that pulls at
nothing stands behind it. -/
theorem read?_render {e : Expr} (he : e.Legible) {rest : List Char} (hrest : Follows 0 rest) :
    read? (e.render.toList ++ rest) = some (e, rest) := by
  rw [read?, recovered he [] rest (Nat.zero_le _) (hrest.mono (Nat.zero_le _)),
    run_of_stuck (step_of_pull_eq_zero (Nat.le_zero.1 hrest.pull_le))]

/-- No expression begins with a word that spells no atom and is not `not`. -/
theorem read?_eq_none {w : String} (hnot : w ≠ "not") (hatom : atom? w = .none)
    (hw : isWord w = true) {rest : List Char}
    (hrest : rest.head?.any isWordChar = false) : read? (w.toList ++ rest) = .none := by
  have hstuck : step (.operand [] (w.toList ++ rest)) = .none := by
    rw [step, operandStep_word hw hrest, wordStep, if_neg hnot, hatom, Option.map_none]
  rw [read?, run_of_stuck hstuck]

end Expr

end ScopeScript
