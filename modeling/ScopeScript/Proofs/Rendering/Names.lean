import ScopeScript.Proofs.Program.Image
import ScopeScript.Proofs.Rendering.Recovery

/-!
# Names of a program

The names in expressions and statements, and what follows if all of them are proper: a program that
is read from a tree has nothing but legible expressions then.

* `Expr.Derivable.legible`, `Expr.IsValue.legible`: what is read from a tree is legible if its names
  are proper.
* `Expr.Legible.identifier`, `Stmt.Legible.identifier`: the names in what is legible are proper.
* `Stmt.IsSimple.legible`: a simple statement that is read from a tree is legible if its names are
  proper.
-/

namespace ScopeScript

/-! ### Expressions -/

namespace Expr

mutual

/-- The names in an expression. -/
def names : Expr → List String
  | none | bool _ | int _ => []
  | name x => [x]
  | unary _ a => a.names
  | binary _ a b => a.names ++ b.names
  | ternary b c o => b.names ++ c.names ++ o.names
  | call f as => f.names ++ namesAll as

/-- The names in several expressions. -/
def namesAll : List Expr → List String
  | [] => []
  | e :: es => e.names ++ namesAll es

end

mutual

/-- A derivable expression is legible if its names are proper. -/
theorem Derivable.legible : ∀ {e : Expr}, e.Derivable → (∀ x ∈ e.names, Identifier x) → e.Legible
  | none, _, _ => trivial
  | bool _, _, _ => trivial
  | int _, h, _ => h
  | name x, _, hx => hx x List.mem_cons_self
  | unary _ _, h, hx => h.2.legible hx
  | binary _ _ _, h, hx => by
    obtain ⟨ha, hb⟩ := List.forall_mem_append.1 hx
    exact ⟨h.1.legible ha, h.2.legible hb⟩
  | ternary _ _ _, h, hx => by
    obtain ⟨hbc, ho⟩ := List.forall_mem_append.1 hx
    obtain ⟨hb, hc⟩ := List.forall_mem_append.1 hbc
    exact ⟨h.1.legible hb, h.2.1.legible hc, h.2.2.legible ho⟩
  | call _ _, h, hx => by
    obtain ⟨hf, has⟩ := List.forall_mem_append.1 hx
    exact ⟨h.1.legible hf, legibleAll_of_derivableAll h.2 has⟩

/-- Derivable expressions are legible if their names are proper. -/
theorem legibleAll_of_derivableAll : ∀ {es : List Expr}, DerivableAll es →
    (∀ x ∈ namesAll es, Identifier x) → LegibleAll es
  | [], _, _ => trivial
  | _ :: _, h, hx => by
    obtain ⟨he, hes⟩ := List.forall_mem_append.1 hx
    exact ⟨h.1.legible he, legibleAll_of_derivableAll h.2 hes⟩

end

mutual

/-- The names in a legible expression are proper. -/
theorem Legible.identifier : ∀ {e : Expr}, e.Legible → ∀ x ∈ e.names, Identifier x
  | none, _ => by simp [names]
  | bool _, _ => by simp [names]
  | int _, _ => by simp [names]
  | name _, h => List.forall_mem_singleton.2 h
  | unary _ a, h => Legible.identifier (e := a) h
  | binary _ _ _, h => List.forall_mem_append.2 ⟨h.1.identifier, h.2.identifier⟩
  | ternary _ _ _, h =>
    List.forall_mem_append.2
      ⟨List.forall_mem_append.2 ⟨h.1.identifier, h.2.1.identifier⟩, h.2.2.identifier⟩
  | call _ _, h => List.forall_mem_append.2 ⟨h.1.identifier, identifier_of_legibleAll h.2⟩

/-- The names in legible expressions are proper. -/
theorem identifier_of_legibleAll : ∀ {es : List Expr}, LegibleAll es →
    ∀ x ∈ namesAll es, Identifier x
  | [], _ => by simp [namesAll]
  | _ :: _, h => List.forall_mem_append.2 ⟨h.1.identifier, identifier_of_legibleAll h.2⟩

end

/-- A value is legible if its names are proper. -/
theorem IsValue.legible {e : Expr} (h : e.IsValue) (hx : ∀ x ∈ e.names, Identifier x) :
    e.Legible := by
  cases h with
  | plain h => exact h.legible hx
  | unpacked h => exact h.legible hx

end Expr

/-! ### Statements -/

namespace Stmt

variable {δ : Type}

/-- A simple statement of legible expressions that some text tells apart from the others: an
assignment brings a hint or a value, and an assertion asserts something. -/
def Legible : Stmt δ → Prop
  | .assign target hint value =>
    Identifier target ∧ (hint = none → value ≠ none) ∧ (∀ e ∈ hint, e.Legible) ∧
      ∀ e ∈ value, e.Legible
  | .assert es => es ≠ [] ∧ ∀ e ∈ es, e.Legible
  | .ret value => ∀ e ∈ value, e.Legible
  | .expr e => e.Legible
  | .pass => True
  | .cond _ _ _ | .funcDef _ _ _ _ | .simple _ => False

mutual

/-- The names in a statement: identifiers, targets, functions and parameters. -/
def names : Stmt δ → List String
  | .assign x hint value => x :: (hint.elim [] Expr.names ++ value.elim [] Expr.names)
  | .assert es => Expr.namesAll es
  | .cond c b .none => c.names ++ namesAll b
  | .cond c b (.some o) => c.names ++ namesAll b ++ namesAll o
  | .ret value => value.elim [] Expr.names
  | .funcDef _ n ps b => n :: ps ++ namesAll b
  | .simple ss => namesAll ss
  | .expr e => e.names
  | .pass => []

/-- The names in several statements. -/
def namesAll : List (Stmt δ) → List String
  | [] => []
  | s :: ss => s.names ++ namesAll ss

end

/-- The names in several statements are those in each. -/
theorem forall_mem_names {ss : List (Stmt δ)} {P : String → Prop} (h : ∀ x ∈ namesAll ss, P x) :
    ∀ s ∈ ss, ∀ x ∈ s.names, P x := by
  induction ss with
  | nil => simp
  | cons s ss ih =>
    obtain ⟨hs, hss⟩ := List.forall_mem_append.1 h
    exact List.forall_mem_cons.2 ⟨hs, ih hss⟩

/-- The names in several expressions are those in each. -/
theorem forall_mem_exprNames {es : List Expr} {P : String → Prop}
    (h : ∀ x ∈ Expr.namesAll es, P x) : ∀ e ∈ es, ∀ x ∈ e.names, P x := by
  induction es with
  | nil => simp
  | cons e es ih =>
    obtain ⟨he, hes⟩ := List.forall_mem_append.1 h
    exact List.forall_mem_cons.2 ⟨he, ih hes⟩

/-- The names in a legible statement are proper. -/
theorem Legible.identifier {s : Stmt δ} (h : s.Legible) : ∀ x ∈ s.names, Identifier x := by
  cases s with
  | assign x hint value =>
    obtain ⟨hname, -, hhint, hvalue⟩ := h
    refine List.forall_mem_cons.2 ⟨hname, List.forall_mem_append.2 ⟨?_, ?_⟩⟩
    · cases hint with
      | none => simp
      | some e => exact (hhint e rfl).identifier
    · cases value with
      | none => simp
      | some e => exact (hvalue e rfl).identifier
  | assert es => exact Expr.identifier_of_legibleAll (Expr.legibleAll_iff.2 h.2)
  | ret value =>
    cases value with
    | none => simp [names]
    | some e => exact (h e rfl).identifier
  | expr e => exact Expr.Legible.identifier h
  | pass => simp [names]
  | cond | funcDef | simple => exact h.elim

/-- The names in legible statements are proper. -/
theorem identifier_of_legible {ss : List (Stmt δ)} (h : ∀ s ∈ ss, s.Legible) :
    ∀ x ∈ namesAll ss, Identifier x := by
  induction ss with
  | nil => simp [namesAll]
  | cons s ss ih =>
    obtain ⟨hs, hss⟩ := List.forall_mem_cons.1 h
    exact List.forall_mem_append.2 ⟨hs.identifier, ih hss⟩

/-- A simple statement with proper names is legible. -/
theorem IsSimple.legible {s : Stmt δ} (hs : s.IsSimple) (hx : ∀ x ∈ s.names, Identifier x) :
    s.Legible := by
  cases s with
  | assign x hint value =>
    obtain ⟨hbrings, hhint, hvalue⟩ := hs
    obtain ⟨hname, hrest⟩ := List.forall_mem_cons.1 hx
    obtain ⟨hnames, hnames'⟩ := List.forall_mem_append.1 hrest
    refine ⟨hname, hbrings, ?_, ?_⟩
    · rintro e rfl
      exact (hhint e rfl).legible hnames
    · rintro e rfl
      exact (hvalue e rfl).legible hnames'
  | assert es =>
    exact ⟨hs.1, fun e he => (hs.2 e he).legible (forall_mem_exprNames hx e he)⟩
  | ret value =>
    rintro e rfl
    exact (hs e rfl).legible hx
  | expr e => exact Expr.IsValue.legible hs hx
  | pass => trivial
  | cond | funcDef | simple => exact hs.elim

end Stmt

/-- The names in a block: identifiers, targets, functions and parameters. -/
def Block.names {δ : Type} (b : Block δ) : List String :=
  Stmt.namesAll b

end ScopeScript
