import ScopeScript.Proofs.Rendering.Names

/-!
# Characters of rendered programs

Besides the names of a program, the text of an expression or of a statement on one line holds
nothing but printable ASCII characters. What is true of these and of the characters of all names is
therefore true of every character of the text: it is on one line, for instance.

* `Text.Over`: every character of a text has a property.
* `Expr.over_render`, `Stmt.over_render`: what is true of printable characters and of names is true
  of a text.
* `Expr.render_ne_empty`, `Stmt.render_ne_empty`: a text is not empty if no name is.
-/

namespace ScopeScript

/-! ### Characters of a text -/

namespace Text

/-- Every character of a text has a property. -/
def Over (P : Char → Prop) (s : String) : Prop :=
  ∀ c ∈ s.toList, P c

/-- Whether a character is a printable character of ASCII. -/
def isPrintable (c : Char) : Bool :=
  ' ' ≤ c && c ≤ '~'

/-- A property of all printable characters of ASCII. -/
def HasPrintable (P : Char → Prop) : Prop :=
  ∀ c, isPrintable c = true → P c

variable {P : Char → Prop}

/-- The characters of a joined text are those of both parts. -/
@[simp]
theorem over_append {s t : String} : Over P (s ++ t) ↔ Over P s ∧ Over P t := by
  rw [Over, String.toList_append, List.forall_mem_append]
  rfl

/-- A text of printable characters. -/
theorem HasPrintable.over (hP : HasPrintable P) {s : String}
    (hs : s.toList.all isPrintable = true) : Over P s :=
  fun c hc => hP c (List.all_eq_true.1 hs c hc)

/-- The characters of texts joined by a text are theirs and its. -/
theorem over_intercalate {sep : String} {ts : List String} (hsep : Over P sep)
    (hts : ∀ t ∈ ts, Over P t) : Over P (sep.intercalate ts) := by
  induction ts with
  | nil =>
    intro c hc
    cases hc
  | cons t ts ih =>
    obtain ⟨ht, hts⟩ := List.forall_mem_cons.1 hts
    cases ts with
    | nil => rwa [String.intercalate_singleton]
    | cons u us =>
      rw [String.intercalate_cons_cons, over_append, over_append]
      exact ⟨⟨ht, hsep⟩, ih hts⟩

/-- A digit is printable. -/
theorem isPrintable_of_isDigit {c : Char} (h : c.isDigit = true) : isPrintable c = true := by
  simp only [Char.isDigit, Bool.and_eq_true, decide_eq_true_eq] at h
  simp only [isPrintable, Bool.and_eq_true, decide_eq_true_eq, Char.le_def]
  have hlow : (' ' : Char).val ≤ '0'.val := by decide
  have hhigh : ('9' : Char).val ≤ '~'.val := by decide
  exact ⟨UInt32.le_trans hlow h.1, UInt32.le_trans h.2 hhigh⟩

/-- An integer is written in printable characters. -/
theorem HasPrintable.over_decimal (hP : HasPrintable P) (i : Int) : Over P (decimal i) := by
  have hdigits : ∀ {k : Nat}, ∀ c ∈ digits k, P c := fun c hc =>
    hP c (isPrintable_of_isDigit (isDigit_of_mem_digits hc))
  cases i with
  | ofNat k =>
    rw [Over, decimal, String.toList_ofList]
    exact hdigits
  | negSucc k =>
    rw [Over, decimal, String.toList_ofList]
    exact List.forall_mem_cons.2 ⟨hP '-' rfl, hdigits⟩

/-- A text on one line: not empty, with no line feed and no carriage return. -/
structure OneLine (s : String) : Prop where
  /-- The text is not empty. -/
  ne_empty : s ≠ ""
  /-- No character of the text belongs to a line end. -/
  unbroken : Over (fun c => c ≠ '\n' ∧ c ≠ '\r') s

/-- Characters of different kinds are different. -/
theorem ne_of_kind {kind : Char → Bool} {c d : Char} (hc : kind c = true) (hd : kind d = false) :
    c ≠ d := by
  rintro rfl
  rw [hc] at hd
  cases hd

/-- An integer is not written as the empty text. -/
theorem decimal_ne_empty (i : Int) : decimal i ≠ "" := by
  cases i with
  | ofNat k => simp [decimal, digits_ne_nil]
  | negSucc k => simp [decimal]

end Text

open Text (Over HasPrintable)

variable {P : Char → Prop}

/-! ### Expressions -/

namespace Expr

/-- The characters of an operand are its own and printable ones. -/
theorem over_operandText (hP : HasPrintable P) {text : String} (h : Over P text)
    (least strength : Strength) : Over P (operandText least strength text) := by
  rw [operandText]
  split
  · rw [Text.over_append, Text.over_append]
    exact ⟨⟨hP.over rfl, h⟩, hP.over rfl⟩
  · exact h

mutual

/-- The characters of an expression are those of its names and printable ones. -/
theorem over_render (hP : HasPrintable P) :
    ∀ {e : Expr}, (∀ x ∈ e.names, Over P x) → Over P e.render
  | none, _ | bool true, _ | bool false, _ => by
    rw [render]
    exact hP.over rfl
  | int n, _ => by
    rw [render]
    exact hP.over_decimal n.toInt
  | name x, hx => by
    rw [render]
    exact hx x List.mem_cons_self
  | unary op a, hx => by
    have hop : Over P op.symbol := hP.over (by cases op <;> rfl)
    have ha : Over P a.render := over_render hP hx
    rw [render, Text.over_append]
    exact ⟨hop, over_operandText hP ha _ _⟩
  | binary op a b, hx => by
    obtain ⟨ha, hb⟩ := List.forall_mem_append.1 hx
    have hop : Over P op.symbol := hP.over (by cases op <;> rfl)
    have hspace : Over P " " := hP.over rfl
    simp only [render, Text.over_append]
    exact ⟨⟨⟨⟨over_operandText hP (over_render hP ha) _ _, hspace⟩, hop⟩, hspace⟩,
      over_operandText hP (over_render hP hb) _ _⟩
  | ternary b c o, hx => by
    obtain ⟨hbc, ho⟩ := List.forall_mem_append.1 hx
    obtain ⟨hb, hc⟩ := List.forall_mem_append.1 hbc
    simp only [render, Text.over_append]
    exact ⟨⟨⟨⟨over_operandText hP (over_render hP hb) _ _, hP.over rfl⟩,
      over_operandText hP (over_render hP hc) _ _⟩, hP.over rfl⟩, over_render hP ho⟩
  | call f as, hx => by
    obtain ⟨hf, has⟩ := List.forall_mem_append.1 hx
    have hargs : Over P (", ".intercalate (renderAll as)) :=
      Text.over_intercalate (hP.over rfl) (over_of_mem_renderAll hP has)
    simp only [render, Text.over_append]
    exact ⟨⟨⟨over_operandText hP (over_render hP hf) _ _, hP.over rfl⟩, hargs⟩, hP.over rfl⟩

/-- The characters of expressions are those of their names and printable ones. -/
theorem over_of_mem_renderAll (hP : HasPrintable P) :
    ∀ {es : List Expr}, (∀ x ∈ namesAll es, Over P x) → ∀ t ∈ renderAll es, Over P t
  | [], _ => by simp [renderAll]
  | _ :: _, hx => by
    obtain ⟨he, hes⟩ := List.forall_mem_append.1 hx
    exact List.forall_mem_cons.2 ⟨over_render hP he, over_of_mem_renderAll hP hes⟩

end

/-- An expression is not written as the empty text if no name in it is empty. -/
theorem render_ne_empty {e : Expr} (hx : ∀ x ∈ e.names, x ≠ "") : e.render ≠ "" := by
  cases e with
  | none => decide
  | bool b => cases b <;> decide
  | int n => exact Text.decimal_ne_empty n.toInt
  | name x => exact hx x List.mem_cons_self
  | unary op a =>
    have hop : op.symbol ≠ "" := by cases op <;> decide
    simp [render, hop]
  | binary | ternary | call => simp [render]

end Expr

/-! ### Statements -/

namespace Stmt

variable {δ : Type}

/-- A statement that is written on one line and stands for one line: neither a compound statement
nor several statements in a row. -/
def IsPlain : Stmt δ → Prop
  | .assign _ _ _ | .assert _ | .ret _ | .expr _ | .pass => True
  | .cond _ _ _ | .funcDef _ _ _ _ | .simple _ => False

/-- A simple statement is plain. -/
theorem IsSimple.isPlain {s : Stmt δ} (h : s.IsSimple) : s.IsPlain := by
  cases s with
  | cond | funcDef | simple => exact h.elim
  | _ => trivial

/-- A legible statement is plain. -/
theorem Legible.isPlain {s : Stmt δ} (h : s.Legible) : s.IsPlain := by
  cases s with
  | cond | funcDef | simple => exact h.elim
  | _ => trivial

/-- The characters of a plain statement are those of its names and printable ones. -/
theorem over_render (hP : HasPrintable P) {s : Stmt δ} (hs : s.IsPlain)
    (hx : ∀ x ∈ s.names, Over P x) : Over P s.render := by
  cases s with
  | assign x hint value =>
    obtain ⟨hname, hrest⟩ := List.forall_mem_cons.1 hx
    obtain ⟨hhint, hvalue⟩ := List.forall_mem_append.1 hrest
    have hcolon : Over P ": " := hP.over rfl
    have hequals : Over P " = " := hP.over rfl
    have hnothing : Over P "" := hP.over rfl
    cases hint <;> cases value <;> simp only [render, Text.over_append]
    · exact ⟨⟨hname, hnothing⟩, hnothing⟩
    · exact ⟨⟨hname, hnothing⟩, hequals, Expr.over_render hP hvalue⟩
    · exact ⟨⟨hname, hcolon, Expr.over_render hP hhint⟩, hnothing⟩
    · exact ⟨⟨hname, hcolon, Expr.over_render hP hhint⟩, hequals, Expr.over_render hP hvalue⟩
  | assert es =>
    rw [render, Text.over_append]
    refine ⟨hP.over rfl, Text.over_intercalate (hP.over rfl) ?_⟩
    exact List.forall_mem_map.2 fun e he => Expr.over_render hP (forall_mem_exprNames hx e he)
  | ret value =>
    cases value with
    | none =>
      rw [render]
      exact hP.over rfl
    | some v =>
      rw [render, Text.over_append]
      exact ⟨hP.over rfl, Expr.over_render hP hx⟩
  | expr e => exact Expr.over_render hP hx
  | pass =>
    rw [render]
    exact hP.over rfl
  | cond | funcDef | simple => exact hs.elim

/-- A plain statement is not written as the empty text if no name in it is empty. -/
theorem render_ne_empty {s : Stmt δ} (hs : s.IsPlain) (hx : ∀ x ∈ s.names, x ≠ "") :
    s.render ≠ "" := by
  cases s with
  | assign x hint value =>
    have hname : x ≠ "" := hx x List.mem_cons_self
    simp [render, hname]
  | assert es => simp [render]
  | ret value => cases value <;> simp [render]
  | expr e => exact Expr.render_ne_empty hx
  | pass => simp [render]
  | cond | funcDef | simple => exact hs.elim

end Stmt

end ScopeScript
