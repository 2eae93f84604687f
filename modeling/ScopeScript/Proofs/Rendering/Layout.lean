import ScopeScript.Grammar.Phrase
import ScopeScript.Proofs.Rendering.Indentation

/-!
# Rendering is unambiguous

A program is told by the depths of its rows: the body of a compound statement ends where a row
stands no deeper than the header, and an alternative belongs to the nearest header of its own depth.
Since the rows are told by the text, so is the program.

* `Stmt.rows_append_injective`: a statement is told by its rows, whatever rows stand behind them.

Main statement:

* `Block.render_injective`: a program that is read from a tree, with proper names and no empty body,
  is told by its text.
-/

namespace ScopeScript

namespace Stmt

/-! ### Reading row by row -/

/-- Rows that may stand behind the statements of a block: the first stands less deep. -/
def Shallow (d : Nat) (rs : List Row) : Prop :=
  ∀ r ∈ rs.head?, r.depth < d

/-- Rows that may stand behind a statement: the first stands less deep, or as deep and begins no
alternative. -/
def Behind (d : Nat) (rs : List Row) : Prop :=
  ∀ r ∈ rs.head?, r.depth < d ∨ r.depth = d ∧ r.line ≠ .otherwise

section

variable {d : Nat} {rs rs' : List Row}

/-- Rows behind a statement stand less deep than its body. -/
theorem Behind.shallow (h : Behind d rs) : Shallow (d + 1) rs := by
  intro r hr
  rcases h r hr with hlt | ⟨heq, -⟩ <;> omega

/-- The rows of an alternative do not stand behind its statement. -/
theorem not_behind_otherwise : ¬ Behind d (⟨d, .otherwise⟩ :: rs) := by
  intro h
  rcases h _ rfl with hlt | ⟨-, hne⟩
  · exact Nat.lt_irrefl d hlt
  · exact hne rfl

/-- The rows of an alternative stand less deep than the body before them. -/
theorem shallow_otherwise : Shallow (d + 1) (⟨d, .otherwise⟩ :: rs) := by
  rintro r ⟨⟩
  exact Nat.lt_succ_self d

/-- Behind a statement stand further statements, or what stands behind the block. -/
theorem behind_rowsAll (ss : List (Stmt Unit)) (h : Shallow d rs) :
    Behind d (rowsAll d ss ++ rs) := by
  cases ss with
  | nil => exact fun r hr => .inl (h r hr)
  | cons s ss =>
    obtain ⟨l, ls, hrows, hne⟩ := exists_rows_eq_cons d s
    rw [rowsAll, hrows]
    rintro r ⟨⟩
    exact .inr ⟨rfl, hne⟩

/-- No statements stand where what is behind a block stands. -/
theorem rowsAll_cons_append_ne (s : Stmt Unit) (ss : List (Stmt Unit)) (h : Shallow d rs) :
    rowsAll d (s :: ss) ++ rs' ≠ rs := by
  rintro rfl
  obtain ⟨l, ls, hrows, -⟩ := exists_rows_eq_cons d s
  rw [rowsAll, hrows] at h
  exact Nat.lt_irrefl d (h _ rfl)

/-- The simple statements of a statement in one row. -/
def members {δ : Type} : Stmt δ → List (Stmt δ)
  | .simple ss => ss
  | s => [s]

/-- A single simple statement is not read as a row of several. -/
theorem ne_singleton_of_derivable {ss : List (Stmt Unit)} (h : (Stmt.simple ss).Derivable)
    (t : Stmt Unit) : ss ≠ [t] := by
  rintro rfl
  exact absurd h.1 (by simp)

/-- A derivable statement in one row is told by its simple statements. -/
theorem eq_of_members_eq {s s' : Stmt Unit} (h : s.Derivable) (h' : s'.Derivable)
    (heq : s.members = s'.members) : s = s' := by
  cases s with
  | simple ss =>
    cases s' with
    | simple ss' => exact congrArg Stmt.simple heq
    | _ => exact absurd heq (ne_singleton_of_derivable h _)
  | _ =>
    cases s' with
    | simple ss' => exact absurd heq.symm (ne_singleton_of_derivable h' _)
    | _ => exact List.singleton_inj.1 heq

/-- A derivable statement in one row is told by the row. -/
theorem eq_of_row_eq {s s' : Stmt Unit} (h : s.Derivable) (h' : s'.Derivable)
    (hrow : rows d s = [⟨d, .clauses s.members⟩]) (heq : rows d s ++ rs = rows d s' ++ rs') :
    s = s' ∧ rs = rs' := by
  have hsame : rows d s' = [⟨d, .clauses s'.members⟩] → s = s' ∧ rs = rs' := by
    intro hrow'
    rw [hrow, hrow', List.singleton_append, List.singleton_append, List.cons.injEq, Row.mk.injEq,
      Line.clauses.injEq] at heq
    exact ⟨eq_of_members_eq h h' heq.1.2, heq.2⟩
  rw [hrow] at heq
  cases s' with
  | cond c b o => cases o <;> cases heq
  | funcDef => cases heq
  | _ => exact hsame rfl

end

mutual

/-- A derivable statement is told by its rows, whatever rows stand behind them. -/
theorem rows_append_injective : ∀ {s s' : Stmt Unit} {d : Nat} {rs rs' : List Row},
    s.Derivable → s'.Derivable → Behind d rs → Behind d rs' →
    rows d s ++ rs = rows d s' ++ rs' → s = s' ∧ rs = rs'
  | .cond c b .none, s', d, rs, rs', h, h', hrs, hrs', heq => by
    cases s' with
    | cond c' b' o' =>
      cases o' with
      | none =>
        rw [rows, rows, List.cons_append, List.cons_append, List.cons.injEq] at heq
        obtain ⟨hheader, heq⟩ := heq
        cases hheader
        -- Both bodies end before the first row that stands no deeper than the headers.
        obtain ⟨rfl, rfl⟩ := rowsAll_append_injective h.2 h'.2 hrs.shallow hrs'.shallow heq
        exact ⟨rfl, rfl⟩
      | some o' =>
        rw [rows, rows, List.cons_append, List.cons_append, List.cons.injEq,
          List.append_assoc] at heq
        -- What stands behind the first body would be the alternative of the other statement.
        obtain ⟨-, rfl⟩ :=
          rowsAll_append_injective h.2 h'.2.1 hrs.shallow shallow_otherwise heq.2
        exact absurd hrs not_behind_otherwise
    | _ => cases heq
  | .cond c b (.some o), s', d, rs, rs', h, h', hrs, hrs', heq => by
    cases s' with
    | cond c' b' o' =>
      cases o' with
      | none =>
        rw [rows, rows, List.cons_append, List.cons_append, List.cons.injEq,
          List.append_assoc] at heq
        obtain ⟨-, rfl⟩ :=
          rowsAll_append_injective h.2.1 h'.2 shallow_otherwise hrs'.shallow heq.2
        exact absurd hrs' not_behind_otherwise
      | some o' =>
        rw [rows, rows, List.cons_append, List.cons_append, List.cons.injEq, List.append_assoc,
          List.append_assoc] at heq
        obtain ⟨hheader, heq⟩ := heq
        cases hheader
        obtain ⟨rfl, hrest⟩ :=
          rowsAll_append_injective h.2.1 h'.2.1 shallow_otherwise shallow_otherwise heq
        obtain ⟨rfl, rfl⟩ := rowsAll_append_injective h.2.2 h'.2.2 hrs.shallow hrs'.shallow
          (List.cons.inj hrest).2
        exact ⟨rfl, rfl⟩
    | _ => cases heq
  | .funcDef _ n ps b, s', d, rs, rs', h, h', hrs, hrs', heq => by
    cases s' with
    | funcDef _ n' ps' b' =>
      rw [rows, rows, List.cons_append, List.cons_append, List.cons.injEq] at heq
      obtain ⟨hheader, heq⟩ := heq
      cases hheader
      obtain ⟨rfl, rfl⟩ := rowsAll_append_injective h h' hrs.shallow hrs'.shallow heq
      exact ⟨rfl, rfl⟩
    | cond c' b' o' => cases o' <;> cases heq
    | _ => cases heq
  | .simple _, _, _, _, _, h, h', _, _, heq => eq_of_row_eq h h' rfl heq
  | .assign _ _ _, _, _, _, _, h, h', _, _, heq => eq_of_row_eq h h' rfl heq
  | .assert _, _, _, _, _, h, h', _, _, heq => eq_of_row_eq h h' rfl heq
  | .ret _, _, _, _, _, h, h', _, _, heq => eq_of_row_eq h h' rfl heq
  | .expr _, _, _, _, _, h, h', _, _, heq => eq_of_row_eq h h' rfl heq
  | .pass, _, _, _, _, h, h', _, _, heq => eq_of_row_eq h h' rfl heq

/-- Derivable statements are told by their rows, whatever rows stand behind them. -/
theorem rowsAll_append_injective : ∀ {ss ss' : List (Stmt Unit)} {d : Nat} {rs rs' : List Row},
    DerivableAll ss → DerivableAll ss' → Shallow d rs → Shallow d rs' →
    rowsAll d ss ++ rs = rowsAll d ss' ++ rs' → ss = ss' ∧ rs = rs'
  | [], [], _, _, _, _, _, _, _, heq => ⟨rfl, heq⟩
  | [], s' :: ss', _, _, _, _, _, hrs, _, heq =>
    absurd heq.symm (rowsAll_cons_append_ne s' ss' hrs)
  | s :: ss, [], _, _, _, _, _, _, hrs', heq => absurd heq (rowsAll_cons_append_ne s ss hrs')
  | s :: ss, s' :: ss', d, rs, rs', h, h', hrs, hrs', heq => by
    rw [rowsAll, rowsAll, List.append_assoc, List.append_assoc] at heq
    obtain ⟨rfl, hrest⟩ := rows_append_injective h.1 h'.1 (behind_rowsAll ss hrs)
      (behind_rowsAll ss' hrs') heq
    obtain ⟨rfl, rfl⟩ := rowsAll_append_injective h.2 h'.2 hrs hrs' hrest
    exact ⟨rfl, rfl⟩

end

end Stmt

/-! ### Programs -/

namespace Block

/-- No body of a compound statement in the block is empty. -/
def Filled {δ : Type} (b : Block δ) : Prop :=
  Stmt.FilledAll b

/-- The text of a program that is read from a tree, with proper names and no empty body, is cut into
the texts of its rows. -/
theorem lines_render {b : Block Unit} (hread : Stmt.DerivableAll b)
    (hnames : ∀ x ∈ b.names, Identifier x) (hfilled : b.Filled) :
    Text.lines b.render = (Stmt.rowsAll 0 b).map Row.text := by
  have hlines : ∀ t ∈ (Stmt.rowsAll 0 b).map Row.text, Text.IsLine t := by
    refine List.forall_mem_map.2 fun r hr => Row.isLine_text ?_
    exact (Stmt.legible_rowsAll hread hnames r hr).oneLine_text
  rw [render, Stmt.renderAll_eq_rows hread hnames hfilled, Text.lines_intercalate hlines]

/-- Programs that are read from trees, with proper names and no empty body, are told by their
texts. -/
theorem render_injective {b b' : Block Unit} (hread : ∃ n : Node, n.program = .ok b)
    (hread' : ∃ n : Node, n.program = .ok b') (hnames : ∀ x ∈ b.names, Identifier x)
    (hnames' : ∀ x ∈ b'.names, Identifier x) (hfilled : b.Filled) (hfilled' : b'.Filled)
    (h : b.render = b'.render) : b = b' := by
  obtain ⟨n, hn⟩ := hread
  obtain ⟨n', hn'⟩ := hread'
  have hb := Node.derivable_program hn
  have hb' := Node.derivable_program hn'
  -- The text gives the rows, and the rows give the program.
  have htexts : (Stmt.rowsAll 0 b).map Row.text = (Stmt.rowsAll 0 b').map Row.text := by
    rw [← lines_render hb hnames hfilled, h, lines_render hb' hnames' hfilled']
  have hrows : Stmt.rowsAll 0 b = Stmt.rowsAll 0 b' :=
    Row.eq_of_map_text_eq (Stmt.legible_rowsAll hb hnames) (Stmt.legible_rowsAll hb' hnames') htexts
  have happend : Stmt.rowsAll 0 b ++ [] = Stmt.rowsAll 0 b' ++ [] := by rw [hrows]
  have hnothing : Stmt.Shallow 0 [] := fun r hr => by cases hr
  exact (Stmt.rowsAll_append_injective hb hb' hnothing hnothing happend).1

/-- An `elif`, and an `else` that holds a conditional statement with its condition in a group, are
different trees of programs with the same text, which are therefore the same program. -/
theorem render_injective_of_elif :
    ∃ n n' : Node, n ≠ n' ∧ ∃ b b' : Block Unit, n.program = .ok b ∧ n'.program = .ok b' ∧
      b.render = "if a:\n\tpass\nelse:\n\tif not b:\n\t\tpass" ∧ b'.render = b.render ∧ b = b' := by
  let pass : Node := Phrase.line [Phrase.pass]
  let n : Node := Phrase.file [Phrase.cond (Phrase.name "a") [pass]
    (some (Phrase.elif (Phrase.negation (Phrase.name "b")) [pass] none))]
  let n' : Node := Phrase.file [Phrase.cond (Phrase.name "a") [pass] (some (Phrase.orElse
    [Phrase.cond (Phrase.group (Phrase.negation (Phrase.name "b"))) [pass] none]))]
  let b : Block Unit :=
    [.cond (.name "a") [.pass] (some [.cond (.unary .not (.name "b")) [.pass] none])]
  have hread : n.program = .ok b := rfl
  have hread' : n'.program = .ok b := rfl
  have hnames : ∀ x ∈ b.names, Identifier x := by decide
  have hfilled : b.Filled := by simp [b, Filled, Stmt.FilledAll, Stmt.Filled]
  exact ⟨n, n', by decide, b, b, hread, hread', rfl, rfl,
    render_injective ⟨n, hread⟩ ⟨n', hread'⟩ hnames hnames hfilled hfilled rfl⟩

/-- Proper names are needed: another name may look like an operator between two names. -/
example : render ([.expr (.name "a + b")] : Block Unit) =
    render ([.expr (.binary .add (.name "a") (.name "b"))] : Block Unit) := rfl

end Block

end ScopeScript
