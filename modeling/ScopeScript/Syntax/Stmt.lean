import ScopeScript.Syntax.Expr

/-!
# Statements and programs

The abstract syntax of statements. Every function definition carries a tag. Syntax read from a parse
tree has the empty tag, so that it is equal to other syntax exactly when the two look alike;
numbering gives each definition a tag of its own, by which function values tell apart definitions
that look alike.

* `erase_number`: numbering changes nothing but the tags.
* `le_number`: the numbers given out never go back.
-/

namespace ScopeScript

/-- A statement whose function definitions carry tags of type `δ`. -/
inductive Stmt (δ : Type) where
  /-- An assignment to a name with an optional type hint; with no value, a bare hint. -/
  | assign (target : String) (hint value : Option Expr)
  /-- An assertion of each of the expressions. -/
  | assert (exprs : List Expr)
  /-- A choice between two blocks; an `elif` is an alternative that holds one more choice. -/
  | cond (condition : Expr) (body : List (Stmt δ)) (orelse : Option (List (Stmt δ)))
  /-- A return, with or without a value. -/
  | ret (value : Option Expr)
  /-- A function definition. -/
  | funcDef (tag : δ) (name : String) (params : List String) (body : List (Stmt δ))
  /-- Several statements on one line. -/
  | simple (stmts : List (Stmt δ))
  /-- An expression whose value is dropped. -/
  | expr (value : Expr)
  /-- The statement that does nothing. -/
  | pass

/-- A list of statements: a program, or the body of a compound statement. -/
abbrev Block (δ : Type) := List (Stmt δ)

/-- A function definition with its tag. -/
structure FuncDef (δ : Type) where
  /-- What tells this definition apart from others that look alike. -/
  tag : δ
  /-- The name that the definition binds. -/
  name : String
  /-- The names of the parameters, in order. -/
  params : List String
  /-- The statements of the body. -/
  body : Block δ

/-- The definition as a statement. -/
def FuncDef.toStmt {δ : Type} (d : FuncDef δ) : Stmt δ :=
  .funcDef d.tag d.name d.params d.body

/-! ### Equality -/

section Equality

variable {δ : Type} [DecidableEq δ]

mutual

/-- Whether two statements are the same tree, tags included. -/
def Stmt.beq : Stmt δ → Stmt δ → Bool
  | .assign t h v, .assign t' h' v' => decide (t = t') && decide (h = h') && decide (v = v')
  | .assert es, .assert es' => decide (es = es')
  | .cond c b .none, .cond c' b' .none => decide (c = c') && Stmt.beqAll b b'
  | .cond c b (.some o), .cond c' b' (.some o') =>
    decide (c = c') && Stmt.beqAll b b' && Stmt.beqAll o o'
  | .ret v, .ret v' => decide (v = v')
  | .funcDef t n ps b, .funcDef t' n' ps' b' =>
    decide (t = t') && decide (n = n') && decide (ps = ps') && Stmt.beqAll b b'
  | .simple ss, .simple ss' => Stmt.beqAll ss ss'
  | .expr e, .expr e' => decide (e = e')
  | .pass, .pass => true
  | _, _ => false

/-- Whether two lists of statements are the same, tree by tree. -/
def Stmt.beqAll : List (Stmt δ) → List (Stmt δ) → Bool
  | [], [] => true
  | s :: ss, t :: ts => Stmt.beq s t && Stmt.beqAll ss ts
  | _, _ => false

end

mutual

/-- The equality test on statements decides equality. -/
theorem Stmt.beq_iff_eq : ∀ s t : Stmt δ, Stmt.beq s t = true ↔ s = t
  | .assign _ _ _, t => by cases t <;> simp [Stmt.beq, and_assoc]
  | .assert _, t => by cases t <;> simp [Stmt.beq]
  | .cond c b .none, t => by
    cases t with
    | cond c' b' o' => cases o' <;> simp [Stmt.beq, Stmt.beqAll_iff_eq b b']
    | _ => simp [Stmt.beq]
  | .cond c b (.some o), t => by
    cases t with
    | cond c' b' o' =>
      cases o' with
      | none => simp [Stmt.beq]
      | some o' => simp [Stmt.beq, Stmt.beqAll_iff_eq b b', Stmt.beqAll_iff_eq o o', and_assoc]
    | _ => simp [Stmt.beq]
  | .ret _, t => by cases t <;> simp [Stmt.beq]
  | .funcDef _ _ _ b, t => by
    cases t with
    | funcDef _ _ _ b' => simp [Stmt.beq, Stmt.beqAll_iff_eq b b', and_assoc]
    | _ => simp [Stmt.beq]
  | .simple ss, t => by
    cases t with
    | simple ss' => simp [Stmt.beq, Stmt.beqAll_iff_eq ss ss']
    | _ => simp [Stmt.beq]
  | .expr _, t => by cases t <;> simp [Stmt.beq]
  | .pass, t => by cases t <;> simp [Stmt.beq]

/-- The equality test on lists of statements decides equality. -/
theorem Stmt.beqAll_iff_eq : ∀ ss ts : List (Stmt δ), Stmt.beqAll ss ts = true ↔ ss = ts
  | [], ts => by cases ts <;> simp [Stmt.beqAll]
  | s :: ss, ts => by
    cases ts with
    | nil => simp [Stmt.beqAll]
    | cons t ts => simp [Stmt.beqAll, Stmt.beq_iff_eq s t, Stmt.beqAll_iff_eq ss ts]

end

instance : DecidableEq (Stmt δ) := fun s t =>
  decidable_of_iff (Stmt.beq s t = true) (Stmt.beq_iff_eq s t)

instance : DecidableEq (FuncDef δ) := fun d d' =>
  decidable_of_iff (d.tag = d'.tag ∧ d.name = d'.name ∧ d.params = d'.params ∧ d.body = d'.body)
    (by cases d; cases d'; simp)

end Equality

/-! ### Numbering -/

mutual

/-- The statement with its definitions numbered from `next` in the order of the text, a definition
before those in its body, and the next free number. -/
def Stmt.number {δ : Type} (next : Nat) : Stmt δ → Stmt Nat × Nat
  | .assign t h v => (.assign t h v, next)
  | .assert es => (.assert es, next)
  | .cond c b .none =>
    let (b, next) := Stmt.numberAll next b
    (.cond c b .none, next)
  | .cond c b (.some o) =>
    let (b, next) := Stmt.numberAll next b
    let (o, next) := Stmt.numberAll next o
    (.cond c b (.some o), next)
  | .ret v => (.ret v, next)
  | .funcDef _ n ps b =>
    let (b, after) := Stmt.numberAll (next + 1) b
    (.funcDef next n ps b, after)
  | .simple ss =>
    let (ss, next) := Stmt.numberAll next ss
    (.simple ss, next)
  | .expr e => (.expr e, next)
  | .pass => (.pass, next)

/-- The statements with their definitions numbered from `next`, and the next free number. -/
def Stmt.numberAll {δ : Type} (next : Nat) : List (Stmt δ) → List (Stmt Nat) × Nat
  | [] => ([], next)
  | s :: ss =>
    let (s, next) := Stmt.number next s
    let (ss, next) := Stmt.numberAll next ss
    (s :: ss, next)

end

mutual

/-- The statement without the tags of its definitions. -/
def Stmt.erase {δ : Type} : Stmt δ → Stmt Unit
  | .assign t h v => .assign t h v
  | .assert es => .assert es
  | .cond c b .none => .cond c (Stmt.eraseAll b) .none
  | .cond c b (.some o) => .cond c (Stmt.eraseAll b) (.some (Stmt.eraseAll o))
  | .ret v => .ret v
  | .funcDef _ n ps b => .funcDef () n ps (Stmt.eraseAll b)
  | .simple ss => .simple (Stmt.eraseAll ss)
  | .expr e => .expr e
  | .pass => .pass

/-- The statements without the tags of their definitions. -/
def Stmt.eraseAll {δ : Type} : List (Stmt δ) → List (Stmt Unit)
  | [] => []
  | s :: ss => Stmt.erase s :: Stmt.eraseAll ss

end

/-- The block with its definitions numbered from `next`, and the next free number. -/
def Block.number {δ : Type} (next : Nat) (b : Block δ) : Block Nat × Nat :=
  Stmt.numberAll next b

/-- The block without the tags of its definitions. -/
def Block.erase {δ : Type} (b : Block δ) : Block Unit :=
  Stmt.eraseAll b

mutual

/-- Numbering a statement changes nothing but the tags. -/
theorem Stmt.erase_number {δ : Type} (next : Nat) :
    ∀ s : Stmt δ, Stmt.erase (Stmt.number next s).1 = Stmt.erase s
  | .assign _ _ _ => rfl
  | .assert _ => rfl
  | .cond _ b .none => by simp [Stmt.number, Stmt.erase, Stmt.eraseAll_numberAll _ b]
  | .cond _ b (.some o) => by
    simp [Stmt.number, Stmt.erase, Stmt.eraseAll_numberAll _ b, Stmt.eraseAll_numberAll _ o]
  | .ret _ => rfl
  | .funcDef _ _ _ b => by simp [Stmt.number, Stmt.erase, Stmt.eraseAll_numberAll _ b]
  | .simple ss => by simp [Stmt.number, Stmt.erase, Stmt.eraseAll_numberAll _ ss]
  | .expr _ => rfl
  | .pass => rfl

/-- Numbering statements changes nothing but the tags. -/
theorem Stmt.eraseAll_numberAll {δ : Type} (next : Nat) :
    ∀ ss : List (Stmt δ), Stmt.eraseAll (Stmt.numberAll next ss).1 = Stmt.eraseAll ss
  | [] => rfl
  | s :: ss => by
    simp [Stmt.numberAll, Stmt.eraseAll, Stmt.erase_number _ s, Stmt.eraseAll_numberAll _ ss]

end

/-- Numbering a block changes nothing but the tags. -/
@[simp]
theorem Block.erase_number {δ : Type} (next : Nat) (b : Block δ) :
    Block.erase (Block.number next b).1 = Block.erase b :=
  Stmt.eraseAll_numberAll next b

mutual

/-- The next free number after a statement is no smaller than the one before it. -/
theorem Stmt.le_number {δ : Type} (next : Nat) : ∀ s : Stmt δ, next ≤ (Stmt.number next s).2
  | .assign _ _ _ => Nat.le_refl _
  | .assert _ => Nat.le_refl _
  | .cond _ b .none => by simpa [Stmt.number] using Stmt.le_numberAll next b
  | .cond _ b (.some o) => by
    simpa [Stmt.number] using Nat.le_trans (Stmt.le_numberAll next b) (Stmt.le_numberAll _ o)
  | .ret _ => Nat.le_refl _
  | .funcDef _ _ _ b => by
    simpa [Stmt.number] using Nat.le_of_succ_le (Stmt.le_numberAll (next + 1) b)
  | .simple ss => by simpa [Stmt.number] using Stmt.le_numberAll next ss
  | .expr _ => Nat.le_refl _
  | .pass => Nat.le_refl _

/-- The next free number after statements is no smaller than the one before them. -/
theorem Stmt.le_numberAll {δ : Type} (next : Nat) :
    ∀ ss : List (Stmt δ), next ≤ (Stmt.numberAll next ss).2
  | [] => Nat.le_refl _
  | s :: ss => by
    simpa [Stmt.numberAll] using Nat.le_trans (Stmt.le_number next s) (Stmt.le_numberAll _ ss)

end

end ScopeScript
