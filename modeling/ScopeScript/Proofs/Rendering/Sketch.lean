import ScopeScript.Proofs.Phrase.Reading
import ScopeScript.Syntax.Render

/-!
# Sketches of rendered expressions

The sketch that goes with the text of an expression, with a group exactly at each operand that
rendering parenthesises. Rendering goes by strength and the grammar by level, and the two agree: the
strength of an expression falls as the level of its production rises, so an operand is written bare
exactly where its production lies within its place. The exceptions are `and` and `or`, whose left
operand may repeat the operator: the grammar has no such nesting, and the operands of both are
joined in one list instead.

* `Expr.sketch`: the sketch of an expression.
* `Expr.within_iff_le_strength`: an expression lies within a place exactly when its strength
  suffices there.
* `Expr.placed_operands_sketch`: every operand fits its place, and every group is needed.
-/

namespace ScopeScript

/-! ### Expressions that trees spell -/

namespace Expr

mutual

/-- An expression that some tree spells and whose text shows it: no integer is negative, no name is
blank, and nothing is unpacked. -/
def Plain : Expr → Prop
  | none | bool _ => True
  | int n => ¬ n < 0
  | name id => Text.isBlank id = false
  | unary op a => op ≠ .star ∧ a.Plain
  | binary _ a b => a.Plain ∧ b.Plain
  | ternary b c o => b.Plain ∧ c.Plain ∧ o.Plain
  | call f as => f.Plain ∧ PlainAll as
  termination_by structural e => e

/-- Every expression of a list is plain. -/
def PlainAll : List Expr → Prop
  | [] => True
  | e :: es => e.Plain ∧ PlainAll es
  termination_by structural es => es

end

end Expr

/-! ### Operators in sketches -/

/-- The token of an operator before its operand. -/
def UnaryOp.token : UnaryOp → Token
  | not => .kwNot
  | neg => .minus
  | pos => .plus
  | bitNot => .tilde
  | star => .star

namespace BinaryOp

/-- The production of the expressions that an operator builds. -/
def production : BinaryOp → Rule
  | or => .disjunction
  | and => .conjunction
  | eq | notEq | lt | le | gt | ge | isIn | notIn | is | isNot => .comparison
  | bitOr => .bitwiseOr
  | bitXor => .bitwiseXor
  | bitAnd => .bitwiseAnd
  | shl | shr => .shiftExpr
  | add | sub => .sum
  | mul | div | floorDiv | mod | matMul => .term
  | pow => .power

/-- The place of the left operand. That of `and` and `or` is the place of an operand which does not
itself repeat the operator. -/
def leftPlace : BinaryOp → Rule
  | or => .conjunction
  | and => .inversion
  | eq | notEq | lt | le | gt | ge | isIn | notIn | is | isNot => .bitwiseOr
  | pow => .awaitPrimary
  | op => op.production

/-- The place of the right operand. -/
def rightPlace : BinaryOp → Rule
  | or => .conjunction
  | and => .inversion
  | eq | notEq | lt | le | gt | ge | isIn | notIn | is | isNot => .bitwiseOr
  | op => op.production.rightOperand

end BinaryOp

namespace Sketch

/-- Operands joined by `and`. A left operand that is already so joined is continued. -/
def joinAnd : Sketch → Sketch → Sketch
  | .conjunction (s :: ss), b => .conjunction (s :: (ss ++ [b]))
  | a, b => .conjunction [a, b]

/-- Operands joined by `or`. A left operand that is already so joined is continued. -/
def joinOr : Sketch → Sketch → Sketch
  | .disjunction (s :: ss), b => .disjunction (s :: (ss ++ [b]))
  | a, b => .disjunction [a, b]

/-- An operator before its operand. -/
def ofUnary : UnaryOp → Sketch → Sketch
  | .not, a => .negation a
  | op, a => .unary op.token a

/-- An operator between its operands. -/
def ofBinary (op : BinaryOp) (a b : Sketch) : Sketch :=
  match op with
  | .or => joinOr a b
  | .and => joinAnd a b
  | .eq => .comparison a [(.eqBitwiseOr, b)]
  | .notEq => .comparison a [(.noteqBitwiseOr, b)]
  | .lt => .comparison a [(.ltBitwiseOr, b)]
  | .le => .comparison a [(.lteBitwiseOr, b)]
  | .gt => .comparison a [(.gtBitwiseOr, b)]
  | .ge => .comparison a [(.gteBitwiseOr, b)]
  | .isIn => .comparison a [(.inBitwiseOr, b)]
  | .notIn => .comparison a [(.notinBitwiseOr, b)]
  | .is => .comparison a [(.isBitwiseOr, b)]
  | .isNot => .comparison a [(.isnotBitwiseOr, b)]
  | .bitOr => .binary .bitwiseOr a .bar b
  | .bitXor => .binary .bitwiseXor a .circumflex b
  | .bitAnd => .binary .bitwiseAnd a .ampersand b
  | .shl => .binary .shiftExpr a .leftShift b
  | .shr => .binary .shiftExpr a .rightShift b
  | .add => .binary .sum a .plus b
  | .sub => .binary .sum a .minus b
  | .mul => .binary .term a .star b
  | .div => .binary .term a .slash b
  | .floorDiv => .binary .term a .doubleSlash b
  | .mod => .binary .term a .percent b
  | .matMul => .binary .term a .at b
  | .pow => .power a b

/-- An operand in a place that takes constructs of strength `least` bare: in a group where rendering
puts it in parentheses. -/
def operand (least strength : Strength) (s : Sketch) : Sketch :=
  if strength < least then .group s else s

end Sketch

namespace Expr

open Sketch

mutual

/-- The sketch of an expression: each construct by its phrase, with a group exactly at each operand
that rendering parenthesises. -/
def sketch : Expr → Sketch
  | none => .keyword .kwNone
  | bool true => .keyword .kwTrue
  | bool false => .keyword .kwFalse
  | int n => .number (Text.decimal n.toInt)
  | name id => .name id
  | unary op a => ofUnary op (operand op.operandStrength a.strength (sketch a))
  | binary op a b =>
    ofBinary op (operand op.leftStrength a.strength (sketch a))
      (operand op.rightStrength b.strength (sketch b))
  | ternary b c o =>
    .ternary (operand Strength.disjunction b.strength (sketch b))
      (operand Strength.disjunction c.strength (sketch c)) (sketch o)
  | call f as => .call (operand Strength.atom f.strength (sketch f)) (sketches as)
  termination_by structural e => e

/-- The sketches of several expressions. -/
def sketches : List Expr → List Sketch
  | [] => []
  | e :: es => sketch e :: sketches es
  termination_by structural es => es

end

/-- The production of the sketch of an expression. -/
def production : Expr → Rule
  | none | bool _ | int _ | name _ => .atom
  | unary .not _ => .inversion
  | unary _ _ => .factor
  | binary op _ _ => op.production
  | ternary _ _ _ => .expression
  | call _ _ => .primary

end Expr

/-! ### Strengths and levels -/

namespace Rule

/-- Whether a production is an expression level above another. -/
def above (r place : Rule) : Bool :=
  match r.level?, place.level? with
  | some low, some high => decide (high < low)
  | _, _ => false

/-- The least strength of an operand that fits a place. Strength falls as the level rises, except
that nothing tells apart the levels from that of `await` down, which hold atoms and calls alone. -/
def leastStrength? (place : Rule) : Option Strength :=
  place.level?.map fun l => min (15 - l) Strength.atom

end Rule

namespace Expr

/-- The level of the production of a plain expression mirrors its strength, and is not that of
`await`, which no expression has for itself. -/
theorem exists_level_production {e : Expr} (h : e.Plain) :
    ∃ l, e.production.level? = some l ∧ l ≤ 15 ∧ l ≠ 2 ∧
      e.strength = min (15 - l) Strength.atom := by
  cases e with
  | none | bool | name => exact ⟨0, rfl, by decide, by decide, rfl⟩
  | call => exact ⟨1, rfl, by decide, by decide, rfl⟩
  | ternary => exact ⟨15, rfl, by decide, by decide, rfl⟩
  | int n =>
    -- A negative integer would be as weak as a sign, yet an atom to the grammar.
    have hstrength : (int n).strength = Strength.atom := if_neg h
    exact ⟨0, rfl, by decide, by decide, hstrength⟩
  | unary op a =>
    cases op with
    | star => exact absurd rfl h.1
    | not | neg | pos | bitNot => exact ⟨_, rfl, by decide, by decide, rfl⟩
  | binary op a b => cases op <;> exact ⟨_, rfl, by decide, by decide, rfl⟩

section

variable {e : Expr} {place : Rule} {least : Strength}

/-- An expression lies within a place exactly when its strength suffices there. -/
theorem within_iff_le_strength (h : e.Plain) (hleast : place.leastStrength? = some least)
    (hplace : place ≠ .atom) : e.production.within place = true ↔ least ≤ e.strength := by
  obtain ⟨low, hlow, hlt, hne, hstrength⟩ := exists_level_production h
  obtain ⟨(high : Nat), hhigh, rfl⟩ := Option.map_eq_some_iff.1 hleast
  have hpos : high ≠ 0 := by
    rintro rfl
    exact hplace (Option.some.inj ((Rule.getElem?_chain_of_level? hhigh).symm.trans rfl))
  simp only [Rule.within, hlow, hhigh, decide_eq_true_eq, hstrength, Strength.atom]
  -- Atoms and calls are equally strong, and the place lies at or above both of their levels.
  show low ≤ high ↔ (min (15 - high) 13 : Nat) ≤ min (15 - low) 13
  omega

/-- An expression lies above a place exactly when its strength falls short there. -/
theorem above_iff_strength_lt (h : e.Plain) (hleast : place.leastStrength? = some least)
    (hplace : place ≠ .atom) : e.production.above place = true ↔ e.strength < least := by
  have hwithin := within_iff_le_strength h hleast hplace
  obtain ⟨low, hlow, -⟩ := exists_level_production h
  obtain ⟨high, hhigh, -⟩ := Option.map_eq_some_iff.1 hleast
  simp only [Rule.within, hlow, hhigh, decide_eq_true_eq] at hwithin
  simp only [Rule.above, hlow, hhigh, decide_eq_true_eq]
  rw [← Nat.not_le, hwithin, Nat.not_le]

end

end Expr

/-! ### The production of a sketch -/

namespace Sketch

/-- Whether a left operand repeats the operator that joins it, so that it is continued. -/
def Continued : BinaryOp → Sketch → Prop
  | .and, .conjunction (_ :: _) => True
  | .or, .disjunction (_ :: _) => True
  | _, _ => False

/-- Joining by `and` continues a left operand, or joins the two. -/
theorem joinAnd_cases (a b : Sketch) :
    (∃ s ss, a = .conjunction (s :: ss) ∧ joinAnd a b = .conjunction (s :: (ss ++ [b]))) ∨
      ¬ Continued .and a ∧ joinAnd a b = .conjunction [a, b] := by
  fun_cases joinAnd a b
  · exact .inl ⟨_, _, rfl, rfl⟩
  · next hne =>
    refine .inr ⟨fun hcont => ?_, rfl⟩
    cases a with
    | conjunction operands =>
      cases operands with
      | nil => exact hcont
      | cons s ss => exact hne s ss rfl
    | _ => exact hcont

/-- Joining by `or` continues a left operand, or joins the two. -/
theorem joinOr_cases (a b : Sketch) :
    (∃ s ss, a = .disjunction (s :: ss) ∧ joinOr a b = .disjunction (s :: (ss ++ [b]))) ∨
      ¬ Continued .or a ∧ joinOr a b = .disjunction [a, b] := by
  fun_cases joinOr a b
  · exact .inl ⟨_, _, rfl, rfl⟩
  · next hne =>
    refine .inr ⟨fun hcont => ?_, rfl⟩
    cases a with
    | disjunction operands =>
      cases operands with
      | nil => exact hcont
      | cons s ss => exact hne s ss rfl
    | _ => exact hcont

/-- What `and` joins is to be continued by a further `and`. -/
theorem continued_joinAnd (a b : Sketch) : Continued .and (joinAnd a b) := by
  rcases joinAnd_cases a b with ⟨s, ss, -, h⟩ | ⟨-, h⟩ <;> rw [h] <;> trivial

/-- What `or` joins is to be continued by a further `or`. -/
theorem continued_joinOr (a b : Sketch) : Continued .or (joinOr a b) := by
  rcases joinOr_cases a b with ⟨s, ss, -, h⟩ | ⟨-, h⟩ <;> rw [h] <;> trivial

/-- The production of an operator between its operands. -/
theorem rule_ofBinary (op : BinaryOp) (a b : Sketch) :
    (ofBinary op a b).node.rule = op.production := by
  cases op with
  | or => rcases joinOr_cases a b with ⟨s, ss, -, h⟩ | ⟨-, h⟩ <;> rw [ofBinary, h] <;> rfl
  | and => rcases joinAnd_cases a b with ⟨s, ss, -, h⟩ | ⟨-, h⟩ <;> rw [ofBinary, h] <;> rfl
  | _ => rfl

/-- An operator between its operands is not a group. -/
theorem ofBinary_ne_group (op : BinaryOp) (a b inner : Sketch) :
    ofBinary op a b ≠ .group inner := by
  cases op with
  | or =>
    rcases joinOr_cases a b with ⟨s, ss, -, h⟩ | ⟨-, h⟩ <;> rw [ofBinary, h] <;>
      exact Sketch.noConfusion
  | and =>
    rcases joinAnd_cases a b with ⟨s, ss, -, h⟩ | ⟨-, h⟩ <;> rw [ofBinary, h] <;>
      exact Sketch.noConfusion
  | _ => exact Sketch.noConfusion

end Sketch

namespace Expr

open Sketch

/-- The sketch of an expression is built from the production of the expression. -/
theorem rule_sketch (e : Expr) : e.sketch.node.rule = e.production := by
  cases e with
  | bool b => cases b <;> rfl
  | unary op a => cases op <;> rfl
  | binary op a b =>
    rw [sketch]
    exact rule_ofBinary op _ _
  | _ => rfl

/-- The sketch of an expression is not a group: parentheses stand around operands alone. -/
theorem sketch_ne_group (e : Expr) (inner : Sketch) : e.sketch ≠ .group inner := by
  cases e with
  | bool b => cases b <;> exact Sketch.noConfusion
  | unary op a => cases op <;> exact Sketch.noConfusion
  | binary op a b =>
    rw [sketch]
    exact ofBinary_ne_group op _ _ inner
  | _ => exact Sketch.noConfusion

end Expr

/-! ### Operands of a sketch -/

namespace Sketch

/-- An operand fits its place, and if it is a group then its inside would not. -/
structure Placed (place : Rule) (s : Sketch) : Prop where
  /-- The operand fits the place. -/
  within : s.Within place
  /-- The inside of a group lies above the place. -/
  needed : ∀ inner, s = .group inner → inner.node.rule.above place = true

section

variable {P : Rule → Sketch → Prop}

/-- One more operand is as required if the operands before it are. -/
theorem operandsAll_append {place : Rule} {ss : List Sketch} {s : Sketch}
    (h : OperandsAll P place ss) (hs : P place s) (hself : s.Operands P) :
    OperandsAll P place (ss ++ [s]) := by
  induction ss with
  | nil => exact ⟨⟨hs, hself⟩, trivial⟩
  | cons t ts ih => exact ⟨h.1, ih h.2⟩

/-- The operands of an operator are as required if its own two are, where a left operand that is
continued only brings its own operands. -/
theorem operands_ofBinary {op : BinaryOp} {a b : Sketch}
    (ha : Continued op a ∨ P op.leftPlace a) (haself : a.Operands P)
    (hb : P op.rightPlace b) (hbself : b.Operands P) : (ofBinary op a b).Operands P := by
  cases op with
  | and =>
    -- A left operand that is continued brings operands that are already placed.
    rcases joinAnd_cases a b with ⟨s, ss, rfl, h⟩ | ⟨hcont, h⟩ <;> rw [ofBinary, h]
    · exact operandsAll_append haself hb hbself
    · exact ⟨⟨ha.resolve_left hcont, haself⟩, ⟨hb, hbself⟩, trivial⟩
  | or =>
    rcases joinOr_cases a b with ⟨s, ss, rfl, h⟩ | ⟨hcont, h⟩ <;> rw [ofBinary, h]
    · exact operandsAll_append haself hb hbself
    · exact ⟨⟨ha.resolve_left hcont, haself⟩, ⟨hb, hbself⟩, trivial⟩
  | eq | notEq | lt | le | gt | ge | isIn | notIn | is | isNot =>
    exact ⟨⟨ha.resolve_left id, haself⟩, ⟨hb, hbself⟩, trivial⟩
  | _ => exact ⟨⟨ha.resolve_left id, haself⟩, hb, hbself⟩

end

end Sketch

namespace Expr

open Sketch

section

variable {e : Expr} {place : Rule} {least : Strength}

/-- A bare expression is placed rightly where its strength suffices. -/
theorem placed_sketch (h : e.Plain) (hleast : place.leastStrength? = some least)
    (hplace : place ≠ .atom) (hstrength : least ≤ e.strength) : Placed place e.sketch where
  within := by
    rw [Within, rule_sketch]
    exact (within_iff_le_strength h hleast hplace).2 hstrength
  needed := fun inner hgroup => absurd hgroup (sketch_ne_group e inner)

/-- An operand is placed rightly, bare or in a group. -/
theorem placed_operand (h : e.Plain) (hleast : place.leastStrength? = some least)
    (hplace : place ≠ .atom) : Placed place (operand least e.strength e.sketch) := by
  rw [operand]
  split
  · next hlt =>
    refine ⟨?_, ?_⟩
    · -- A group is an atom, which lies within every place.
      obtain ⟨high, hhigh, -⟩ := Option.map_eq_some_iff.1 hleast
      exact Rule.within_iff.2 ⟨0, high, rfl, hhigh, Nat.zero_le high⟩
    · rintro inner ⟨⟩
      rw [rule_sketch]
      exact (above_iff_strength_lt h hleast hplace).2 hlt
  · next hge => exact placed_sketch h hleast hplace (Nat.le_of_not_lt hge)

/-- The operands of an operand are those of the expression, and the expression itself if it stands
in a group. -/
theorem placed_operands_operand (h : e.Plain) (least : Strength)
    (hself : e.sketch.Operands Placed) :
    (operand least e.strength e.sketch).Operands Placed := by
  rw [operand]
  split
  · exact ⟨placed_sketch h rfl Rule.noConfusion (Nat.zero_le _), hself⟩
  · exact hself

end

/-- An expression as strong as `and` or `or` is built by the operator and is continued by it. -/
theorem continued_sketch {op : BinaryOp} {e : Expr} (h : e.Plain) (hop : op = .and ∨ op = .or)
    (hstrength : e.strength = op.strength) : Continued op e.sketch := by
  cases e with
  | binary op' a b =>
    -- No other operator shares the strength of `and` or that of `or`.
    have hsame : op' = op := by
      revert hstrength
      rcases hop with rfl | rfl <;> cases op' <;> simp [strength, BinaryOp.strength]
    subst hsame
    rcases hop with rfl | rfl
    · exact continued_joinAnd _ _
    · exact continued_joinOr _ _
  | unary op' a =>
    exfalso
    have hstar := h.1
    revert hstrength hstar
    rcases hop with rfl | rfl <;> cases op' <;>
      simp [strength, BinaryOp.strength, UnaryOp.strength]
  | int n =>
    exfalso
    rw [strength, if_neg h] at hstrength
    rcases hop with rfl | rfl <;> cases hstrength
  | _ =>
    exfalso
    rcases hop with rfl | rfl <;> cases hstrength

/-- A left operand continues the operator or is placed rightly. -/
theorem placed_left (op : BinaryOp) {e : Expr} (h : e.Plain) :
    Continued op (operand op.leftStrength e.strength e.sketch) ∨
      Placed op.leftPlace (operand op.leftStrength e.strength e.sketch) := by
  by_cases hop : op = .and ∨ op = .or
  · have hleft : op.leftStrength = op.strength := by rcases hop with rfl | rfl <;> rfl
    have hleast : op.leftPlace.leastStrength? = some (op.strength + 1) := by
      rcases hop with rfl | rfl <;> rfl
    have hplace : op.leftPlace ≠ .atom := by rcases hop with rfl | rfl <;> exact Rule.noConfusion
    rw [hleft]
    by_cases hstrength : e.strength = op.strength
    · left
      rw [operand, if_neg (by rw [hstrength]; exact Nat.lt_irrefl _)]
      exact continued_sketch h hop hstrength
    · right
      -- Anything but the operator itself stands bare under it where it would on its right.
      have hsame : operand op.strength e.strength e.sketch =
          operand (op.strength + 1) e.strength e.sketch := by
        have hiff : e.strength < op.strength ↔ e.strength < op.strength + 1 :=
          ⟨Nat.lt_succ_of_lt, fun hlt => Nat.lt_of_le_of_ne (Nat.le_of_lt_succ hlt) hstrength⟩
        simp only [operand, hiff]
      rw [hsame]
      exact placed_operand h hleast hplace
  · right
    have hleast : op.leftPlace.leastStrength? = some op.leftStrength := by
      revert hop
      cases op <;> first | exact fun _ => rfl | exact fun hop => absurd (by decide) hop
    have hplace : op.leftPlace ≠ .atom := by cases op <;> exact Rule.noConfusion
    exact placed_operand h hleast hplace

/-- A right operand is placed rightly. -/
theorem placed_right (op : BinaryOp) {e : Expr} (h : e.Plain) :
    Placed op.rightPlace (operand op.rightStrength e.strength e.sketch) := by
  have hleast : op.rightPlace.leastStrength? = some op.rightStrength := by cases op <;> rfl
  have hplace : op.rightPlace ≠ .atom := by cases op <;> exact Rule.noConfusion
  exact placed_operand h hleast hplace

mutual

/-- Every operand in the sketch of a plain expression is placed rightly. -/
theorem placed_operands_sketch : ∀ {e : Expr}, e.Plain → e.sketch.Operands Placed
  | none, _ => trivial
  | bool true, _ => trivial
  | bool false, _ => trivial
  | int _, _ => trivial
  | name _, _ => trivial
  | unary op a, h => by
    have hself := placed_operands_operand h.2 op.operandStrength (placed_operands_sketch h.2)
    cases op with
    | star => exact absurd rfl h.1
    | not => exact ⟨placed_operand h.2 rfl Rule.noConfusion, hself⟩
    | neg | pos | bitNot => exact ⟨placed_operand h.2 rfl Rule.noConfusion, hself⟩
  | binary op a b, h => by
    rw [sketch]
    exact operands_ofBinary (placed_left op h.1)
      (placed_operands_operand h.1 op.leftStrength (placed_operands_sketch h.1))
      (placed_right op h.2)
      (placed_operands_operand h.2 op.rightStrength (placed_operands_sketch h.2))
  | ternary b c o, h => by
    obtain ⟨hb, hc, ho⟩ := h
    -- The alternative takes any expression bare, even another choice.
    refine ⟨⟨placed_operand hb rfl Rule.noConfusion, ?_⟩,
      ⟨placed_operand hc rfl Rule.noConfusion, ?_⟩, ?_, placed_operands_sketch ho⟩
    · exact placed_operands_operand hb _ (placed_operands_sketch hb)
    · exact placed_operands_operand hc _ (placed_operands_sketch hc)
    · exact placed_sketch ho rfl Rule.noConfusion (Nat.zero_le _)
  | call f as, h =>
    ⟨⟨placed_operand h.1 rfl Rule.noConfusion,
      placed_operands_operand h.1 _ (placed_operands_sketch h.1)⟩,
      placed_operands_sketches h.2⟩

/-- The sketches of plain arguments are placed rightly, and so are their operands. -/
theorem placed_operands_sketches : ∀ {es : List Expr}, PlainAll es →
    OperandsAll Placed .expression (sketches es)
  | [], _ => trivial
  | _ :: _, h =>
    ⟨⟨placed_sketch h.1 rfl Rule.noConfusion (Nat.zero_le _), placed_operands_sketch h.1⟩,
      placed_operands_sketches h.2⟩

end

end Expr

end ScopeScript
