import ScopeScript.Proofs.Rendering.Lines

/-!
# Rows of rendered programs

A rendered program is a sequence of rows, each a line behind tabs that tell its depth. The rows are
found again by cutting the text at line feeds.

* `Text.lines_intercalate`: joined lines are found again.
* `Row.isLine_text`: the text of a row is a line if that of its line is on one line.
* `Row.text_injective`: a row is told by its text.
-/

namespace ScopeScript

/-! ### Lines of joined texts -/

namespace Text

/-- A line of a text: not empty, with no line feed, and with no carriage return at its end. -/
structure IsLine (t : String) : Prop where
  /-- The line is not empty. -/
  ne_empty : t ≠ ""
  /-- The line holds no line feed. -/
  no_feed : '\n' ∉ t.toList
  /-- No carriage return ends the line. -/
  no_return : t.toList.getLast? ≠ some '\r'

/-- Joined lines are found again. -/
theorem lines_intercalate {ts : List String} (h : ∀ t ∈ ts, IsLine t) :
    lines ("\n".intercalate ts) = ts := by
  induction ts with
  | nil => rfl
  | cons t ts ih =>
    obtain ⟨ht, hts⟩ := List.forall_mem_cons.1 h
    cases ts with
    | nil =>
      rw [String.intercalate_singleton]
      exact lines_of_no_feed ht.ne_empty ht.no_feed
    | cons u us =>
      have htext : ("\n".intercalate (t :: u :: us)).toList =
          t.toList ++ '\n' :: ("\n".intercalate (u :: us)).toList := by
        simp [String.intercalate_cons_cons]
      have hrest := ih hts
      rw [lines] at hrest ⊢
      rw [htext, linesFrom_append_of_no_feed [] ht.no_feed, linesFrom, if_pos rfl, List.map_cons,
        hrest, List.append_nil, List.reverse_reverse, dropFinalReturn, if_neg ht.no_return,
        String.ofList_toList]

end Text

/-! ### Rows -/

/-- A line with its depth. -/
structure Row where
  /-- The number of tabs before the line. -/
  depth : Nat
  /-- The line. -/
  line : Line

namespace Row

/-- The text of a row. -/
def text (r : Row) : String :=
  String.ofList (List.replicate r.depth '\t') ++ r.line.text

/-- A row at depth zero is written as its line. -/
theorem text_zero (l : Line) : text ⟨0, l⟩ = l.text :=
  String.empty_append

/-- The row one tab deeper. -/
def deeper (r : Row) : Row :=
  { r with depth := r.depth + 1 }

/-- A row one tab deeper has one tab more before it. -/
theorem text_deeper (r : Row) : r.deeper.text = "\t" ++ r.text := by
  apply String.toList_inj.1
  simp [text, deeper, List.replicate_succ]

/-- The tabs of a row are those before the first other character. -/
theorem takeWhile_tab {r : Row} (hr : r.line.Legible) :
    r.text.toList.takeWhile (· == '\t') = List.replicate r.depth '\t' := by
  obtain ⟨c, cs, hcs⟩ := List.exists_cons_of_ne_nil
    (show r.line.text.toList ≠ [] by simpa using hr.oneLine_text.ne_empty)
  have hc : (c == '\t') = false := by
    have hunbroken := List.all_eq_true.1 (Line.isUnbroken_text hr) c (hcs ▸ List.mem_cons_self)
    simp only [Bool.and_eq_true, bne_iff_ne] at hunbroken
    simpa using hunbroken.1.1
  rw [text, String.toList_append, String.toList_ofList, hcs,
    List.takeWhile_append_of_pos (by simp), List.takeWhile_cons_of_neg (by simp [hc]),
    List.append_nil]

/-- A row is told by its text. -/
theorem text_injective {r r' : Row} (hr : r.line.Legible) (hr' : r'.line.Legible)
    (h : r.text = r'.text) : r = r' := by
  have hdepth : r.depth = r'.depth := by
    have hlength := congrArg List.length (takeWhile_tab hr)
    rw [h, takeWhile_tab hr', List.length_replicate, List.length_replicate] at hlength
    exact hlength.symm
  have hline : r.line.text = r'.line.text := by
    rw [text, text, hdepth] at h
    exact String.append_right_inj _ |>.1 h
  obtain ⟨d, l⟩ := r
  obtain ⟨d', l'⟩ := r'
  obtain rfl : d = d' := hdepth
  obtain rfl : l = l' := Line.text_injective hr hr' hline
  rfl

/-- The text of a row is a line if that of its line is. -/
theorem isLine_text {r : Row} (hr : Text.OneLine r.line.text) : Text.IsLine r.text := by
  have hmem : ∀ c ∈ r.text.toList, c ≠ '\n' ∧ c ≠ '\r' := by
    intro c hc
    rw [text, String.toList_append, String.toList_ofList] at hc
    rcases List.mem_append.1 hc with htab | hline
    · obtain ⟨-, rfl⟩ := List.mem_replicate.1 htab
      decide
    · exact hr.unbroken c hline
  refine ⟨?_, fun h => (hmem _ h).1 rfl, fun h => (hmem _ (List.mem_of_getLast? h)).2 rfl⟩
  intro h
  rw [text] at h
  exact hr.ne_empty (String.append_eq_empty_iff.1 h).2

/-- Rows are told by their texts. -/
theorem eq_of_map_text_eq {rs rs' : List Row} (hrs : ∀ r ∈ rs, r.line.Legible)
    (hrs' : ∀ r ∈ rs', r.line.Legible) (h : rs.map text = rs'.map text) : rs = rs' := by
  induction rs generalizing rs' with
  | nil => exact (List.map_eq_nil_iff.1 h.symm).symm
  | cons r rs ih =>
    cases rs' with
    | nil => cases h
    | cons r' rs' =>
      obtain ⟨hr, hrs⟩ := List.forall_mem_cons.1 hrs
      obtain ⟨hr', hrs'⟩ := List.forall_mem_cons.1 hrs'
      rw [List.map_cons, List.map_cons, List.cons.injEq] at h
      rw [text_injective hr hr' h.1, ih hrs hrs' h.2]

end Row

namespace Stmt

mutual

/-- The rows of a statement whose first line stands at a depth. -/
def rows (d : Nat) : Stmt Unit → List Row
  | .cond c b .none => ⟨d, .header c⟩ :: rowsAll (d + 1) b
  | .cond c b (.some o) =>
    ⟨d, .header c⟩ :: (rowsAll (d + 1) b ++ ⟨d, .otherwise⟩ :: rowsAll (d + 1) o)
  | .funcDef _ n ps b => ⟨d, .definition n ps⟩ :: rowsAll (d + 1) b
  | .simple ss => [⟨d, .clauses ss⟩]
  | .assign x hint value => [⟨d, .clauses [.assign x hint value]⟩]
  | .assert es => [⟨d, .clauses [.assert es]⟩]
  | .ret value => [⟨d, .clauses [.ret value]⟩]
  | .expr e => [⟨d, .clauses [.expr e]⟩]
  | .pass => [⟨d, .clauses [.pass]⟩]

/-- The rows of several statements. -/
def rowsAll (d : Nat) : List (Stmt Unit) → List Row
  | [] => []
  | s :: ss => rows d s ++ rowsAll d ss

end

/-- A statement has a row, and the first stands at the statement's depth and begins no
alternative. -/
theorem exists_rows_eq_cons (d : Nat) (s : Stmt Unit) :
    ∃ l rs, rows d s = ⟨d, l⟩ :: rs ∧ l ≠ .otherwise := by
  cases s with
  | cond c b o =>
    cases o with
    | none => exact ⟨_, _, rows.eq_1 d c b, Line.noConfusion⟩
    | some o => exact ⟨_, _, rows.eq_2 d c b o, Line.noConfusion⟩
  | _ =>
    rw [rows]
    exact ⟨_, _, rfl, Line.noConfusion⟩

/-! ### Bodies that are not empty -/

section

variable {δ : Type}

mutual

/-- No body of a compound statement in the statement is empty. -/
def Filled : Stmt δ → Prop
  | .cond _ b .none => b ≠ [] ∧ FilledAll b
  | .cond _ b (.some o) => b ≠ [] ∧ FilledAll b ∧ o ≠ [] ∧ FilledAll o
  | .funcDef _ _ _ b => b ≠ [] ∧ FilledAll b
  | .simple ss => FilledAll ss
  | .assign _ _ _ | .assert _ | .ret _ | .expr _ | .pass => True

/-- No body of a compound statement in the statements is empty. -/
def FilledAll : List (Stmt δ) → Prop
  | [] => True
  | s :: ss => s.Filled ∧ FilledAll ss

end

end

end Stmt

end ScopeScript
