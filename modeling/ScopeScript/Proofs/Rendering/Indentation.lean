import ScopeScript.Grammar.Phrase
import ScopeScript.Proofs.Rendering.Rows

/-!
# Indentation of rendered programs

Rendering indents a body by cutting its text into lines and putting a tab before each, so that a
line is cut out and joined again as often as it is nested. The layout of a program lists the same
rows in one pass: the depth of a row is the number of bodies around it.

* `Stmt.layout_succ`: one tab deeper, a statement has the same layout one tab deeper.
* `Stmt.formed_layoutAll`: the lines of a layout, and the kind of the names in them.
* `Stmt.renderAll_eq_rows`: statements without empty bodies are written row by row.

Main statement:

* `Block.render_eq_listing`: a program that is read from a tree is written as its layout lists it,
  if each of its names is on one line.
-/

namespace ScopeScript

namespace Stmt

/-! ### Layout -/

/-- The rows of a body: an empty body has the row `pass`. -/
def orPass (d : Nat) : List Row → List Row
  | [] => [⟨d, .clauses [.pass]⟩]
  | rs => rs

mutual

/-- The rows of a statement inside a number of bodies. -/
def layout (d : Nat) : Stmt Unit → List Row
  | .cond c b .none => ⟨d, .header c⟩ :: orPass (d + 1) (layoutAll (d + 1) b)
  | .cond c b (.some o) =>
    ⟨d, .header c⟩ :: (orPass (d + 1) (layoutAll (d + 1) b) ++
      ⟨d, .otherwise⟩ :: orPass (d + 1) (layoutAll (d + 1) o))
  | .funcDef _ n ps b => ⟨d, .definition n ps⟩ :: orPass (d + 1) (layoutAll (d + 1) b)
  | .simple ss => [⟨d, .clauses ss⟩]
  | .assign x hint value => [⟨d, .clauses [.assign x hint value]⟩]
  | .assert es => [⟨d, .clauses [.assert es]⟩]
  | .ret value => [⟨d, .clauses [.ret value]⟩]
  | .expr e => [⟨d, .clauses [.expr e]⟩]
  | .pass => [⟨d, .clauses [.pass]⟩]

/-- The rows of several statements inside a number of bodies. -/
def layoutAll (d : Nat) : List (Stmt Unit) → List Row
  | [] => []
  | s :: ss => layout d s ++ layoutAll d ss

end

/-! ### Bodies -/

section

variable {d : Nat} {rs : List Row}

/-- A body has a row. -/
theorem orPass_ne_nil : orPass d rs ≠ [] := by
  cases rs <;> simp [orPass]

/-- The rows of statements are those of the body they are. -/
theorem orPass_of_ne_nil (h : rs ≠ []) : orPass d rs = rs := by
  cases rs with
  | nil => exact absurd rfl h
  | cons r rs => rfl

/-- Rows of statements are among those of the body that the statements are. -/
theorem subset_orPass {rs' : List Row} (h : rs' ⊆ rs) : rs' ⊆ orPass d rs := by
  cases rs with
  | nil =>
    rw [List.subset_nil.1 h]
    exact List.nil_subset _
  | cons r rs => exact h

/-- One tab deeper, the rows of a body are one tab deeper. -/
theorem map_deeper_orPass : (orPass d rs).map Row.deeper = orPass (d + 1) (rs.map Row.deeper) := by
  cases rs <;> rfl

/-- What holds of the rows of statements and of `pass` holds of those of a body. -/
theorem forall_mem_orPass {P : Row → Prop} (hpass : P ⟨d, .clauses [.pass]⟩) (h : ∀ r ∈ rs, P r) :
    ∀ r ∈ orPass d rs, P r := by
  cases rs with
  | nil => exact List.forall_mem_singleton.2 hpass
  | cons r rs => exact h

end

/-- A statement has a row. -/
theorem layout_ne_nil (d : Nat) (s : Stmt Unit) : layout d s ≠ [] := by
  cases s with
  | cond c b o => cases o <;> simp [layout]
  | _ => simp [layout]

/-- Statements have a row. -/
theorem layoutAll_ne_nil {ss : List (Stmt Unit)} (h : ss ≠ []) (d : Nat) :
    layoutAll d ss ≠ [] := by
  obtain ⟨s, ss, rfl⟩ := List.exists_cons_of_ne_nil h
  rw [layoutAll]
  exact List.append_ne_nil_of_left_ne_nil (layout_ne_nil d s) _

/-! ### Layout one tab deeper -/

mutual

/-- One tab deeper, a statement has the same layout one tab deeper. -/
theorem layout_succ (d : Nat) : ∀ s : Stmt Unit, layout (d + 1) s = (layout d s).map Row.deeper
  | .cond _ b .none => by
    rw [layout, layout, layoutAll_succ (d + 1) b, List.map_cons, map_deeper_orPass]
    rfl
  | .cond _ b (.some o) => by
    rw [layout, layout, layoutAll_succ (d + 1) b, layoutAll_succ (d + 1) o, List.map_cons,
      List.map_append, List.map_cons, map_deeper_orPass, map_deeper_orPass]
    rfl
  | .funcDef _ _ _ b => by
    rw [layout, layout, layoutAll_succ (d + 1) b, List.map_cons, map_deeper_orPass]
    rfl
  | .simple _ => rfl
  | .assign _ _ _ => rfl
  | .assert _ => rfl
  | .ret _ => rfl
  | .expr _ => rfl
  | .pass => rfl

/-- One tab deeper, statements have the same layout one tab deeper. -/
theorem layoutAll_succ (d : Nat) : ∀ ss : List (Stmt Unit),
    layoutAll (d + 1) ss = (layoutAll d ss).map Row.deeper
  | [] => rfl
  | s :: ss => by
    rw [layoutAll, layoutAll, layout_succ d s, layoutAll_succ d ss, List.map_append]

end

/-! ### Lines of a layout -/

section

variable {kind : String → Prop}

/-- The line of an empty body is formed. -/
theorem formed_orPass {d : Nat} {rs : List Row} (h : ∀ r ∈ rs, r.line.Formed kind) :
    ∀ r ∈ orPass d rs, r.line.Formed kind := by
  have hpass : (Line.clauses [.pass]).Formed kind :=
    Line.formed_clause trivial (by simp [names])
  exact forall_mem_orPass hpass h

/-- The row of a simple statement by itself is formed. -/
theorem formed_single {s : Stmt Unit} {d : Nat} (hs : s.IsSimple) (hx : ∀ x ∈ s.names, kind x) :
    ∀ r ∈ ([⟨d, .clauses [s]⟩] : List Row), r.line.Formed kind :=
  List.forall_mem_singleton.2 (Line.formed_clause hs hx)

mutual

/-- The lines of a derivable statement are formed, with names of a kind if its names are. -/
theorem formed_layout : ∀ {s : Stmt Unit} {d : Nat}, s.Derivable → (∀ x ∈ s.names, kind x) →
    ∀ r ∈ s.layout d, r.line.Formed kind
  | .cond c b .none, d, h, hx => by
    obtain ⟨hc, hb⟩ := List.forall_mem_append.1 hx
    exact List.forall_mem_cons.2 ⟨⟨h.1, hc⟩, formed_orPass (formed_layoutAll h.2 hb)⟩
  | .cond c b (.some o), d, h, hx => by
    obtain ⟨hcb, ho⟩ := List.forall_mem_append.1 hx
    obtain ⟨hc, hb⟩ := List.forall_mem_append.1 hcb
    have hother : Line.otherwise.Formed kind := ⟨trivial, by simp [Line.names]⟩
    refine List.forall_mem_cons.2 ⟨⟨h.1, hc⟩, List.forall_mem_append.2 ⟨?_, ?_⟩⟩
    · exact formed_orPass (formed_layoutAll h.2.1 hb)
    · exact List.forall_mem_cons.2 ⟨hother, formed_orPass (formed_layoutAll h.2.2 ho)⟩
  | .funcDef _ n ps b, d, h, hx => by
    obtain ⟨hnames, hb⟩ := List.forall_mem_append.1 hx
    exact List.forall_mem_cons.2 ⟨⟨trivial, hnames⟩, formed_orPass (formed_layoutAll h hb)⟩
  | .simple ss, d, h, hx => by
    have hne : ss ≠ [] := by
      rintro rfl
      exact absurd h.1 (by decide)
    exact List.forall_mem_singleton.2 ⟨⟨hne, h.2⟩, hx⟩
  | .assign _ _ _, d, h, hx => formed_single h hx
  | .assert _, d, h, hx => formed_single h hx
  | .ret _, d, h, hx => formed_single h hx
  | .expr _, d, h, hx => formed_single h hx
  | .pass, d, h, hx => formed_single h hx

/-- The lines of derivable statements are formed, with names of a kind if their names are. -/
theorem formed_layoutAll : ∀ {ss : List (Stmt Unit)} {d : Nat}, DerivableAll ss →
    (∀ x ∈ namesAll ss, kind x) → ∀ r ∈ layoutAll d ss, r.line.Formed kind
  | [], _, _, _ => by simp [layoutAll]
  | _ :: _, _, h, hx => by
    obtain ⟨hs, hss⟩ := List.forall_mem_append.1 hx
    exact List.forall_mem_append.2 ⟨formed_layout h.1 hs, formed_layoutAll h.2 hss⟩

end

end

/-! ### Rendering row by row -/

/-- A body is written one tab deeper if its statements are written row by row. -/
theorem indented_eq {b : List (Stmt Unit)}
    (hlines : ∀ r ∈ layoutAll 0 b, r.line.Formed Text.OneLine)
    (h : "\n".intercalate (renderAll b) = "\n".intercalate ((layoutAll 0 b).map Row.text)) :
    indented (renderAll b) = "\n".intercalate ((orPass 1 (layoutAll 1 b)).map Row.text) := by
  cases b with
  | nil => decide
  | cons s ss =>
    -- Each row is a line, so the cut finds the rows and nothing else.
    have hcut : Text.lines ("\n".intercalate (renderAll (s :: ss))) =
        (layoutAll 0 (s :: ss)).map Row.text := by
      rw [h]
      refine Text.lines_intercalate (List.forall_mem_map.2 fun r hr => Row.isLine_text ?_)
      exact Line.oneLine_text (hlines r hr).plain (hlines r hr).names
    have hindented : indented (renderAll (s :: ss)) =
        "\n".intercalate ((Text.lines ("\n".intercalate (renderAll (s :: ss)))).map ("\t" ++ ·)) :=
      rfl
    -- A tab before a row is a row one deeper, whatever tabs stood before it already.
    rw [hindented, hcut, orPass_of_ne_nil (layoutAll_ne_nil (List.cons_ne_nil s ss) 1),
      layoutAll_succ, List.map_map, List.map_map]
    congr 1
    exact List.map_congr_left fun r _ => (Row.text_deeper r).symm

/-- A header is written above its body. -/
theorem header_append {l : Line} {rs : List Row} (h : rs ≠ []) :
    "\n".intercalate ((⟨0, l⟩ :: rs).map Row.text) =
      l.text ++ "\n" ++ "\n".intercalate (rs.map Row.text) := by
  rw [List.map_cons, String.intercalate_cons_of_ne_nil (by simpa using h), Row.text_zero]

/-- A single line is written by itself. -/
theorem intercalate_single (l : Line) :
    "\n".intercalate (([⟨0, l⟩] : List Row).map Row.text) = l.text := by
  rw [List.map_cons, List.map_nil, String.intercalate_singleton, Row.text_zero]

/-- A single simple statement is written by itself. -/
theorem intercalate_clause (s : Stmt Unit) :
    "\n".intercalate (([⟨0, .clauses [s]⟩] : List Row).map Row.text) = s.render := by
  rw [intercalate_single, Line.text, List.map_cons, List.map_nil, String.intercalate_singleton]

mutual

-- By recursion on the statement, always at depth zero: a body is compared where it is rendered, and
-- `indented_eq` takes both sides one tab deeper.

/-- A derivable statement is written row by row if each of its names is on one line. -/
theorem render_eq_layout : ∀ {s : Stmt Unit}, s.Derivable → (∀ x ∈ s.names, Text.OneLine x) →
    s.render = "\n".intercalate ((s.layout 0).map Row.text)
  | .cond c b .none, h, hx => by
    obtain ⟨-, hb⟩ := List.forall_mem_append.1 hx
    have hbody := indented_eq (formed_layoutAll h.2 hb) (renderAll_eq_layoutAll h.2 hb)
    rw [render, hbody, layout, header_append orPass_ne_nil]
    apply String.toList_inj.1
    simp [Line.text]
  | .cond c b (.some o), h, hx => by
    obtain ⟨hcb, ho⟩ := List.forall_mem_append.1 hx
    obtain ⟨-, hb⟩ := List.forall_mem_append.1 hcb
    have hbody := indented_eq (formed_layoutAll h.2.1 hb) (renderAll_eq_layoutAll h.2.1 hb)
    have hother := indented_eq (formed_layoutAll h.2.2 ho) (renderAll_eq_layoutAll h.2.2 ho)
    have hrows : orPass 1 (layoutAll 1 b) ≠ [] := orPass_ne_nil
    rw [render, hbody, hother, layout, header_append (by simp), List.map_append,
      String.intercalate_append_of_ne_nil (by simpa using hrows) (by simp),
      header_append orPass_ne_nil]
    apply String.toList_inj.1
    simp [Line.text]
  | .funcDef _ n ps b, h, hx => by
    obtain ⟨-, hb⟩ := List.forall_mem_append.1 hx
    have hbody := indented_eq (formed_layoutAll h hb) (renderAll_eq_layoutAll h hb)
    rw [render, hbody, layout, header_append orPass_ne_nil]
    apply String.toList_inj.1
    simp [Line.text]
  | .simple ss, _, _ => by
    rw [render, layout, intercalate_single, Line.text, renderAll_eq_map]
  | .assign _ _ _, _, _ => (intercalate_clause _).symm
  | .assert _, _, _ => (intercalate_clause _).symm
  | .ret _, _, _ => (intercalate_clause _).symm
  | .expr _, _, _ => (intercalate_clause _).symm
  | .pass, _, _ => (intercalate_clause _).symm

/-- Derivable statements are written row by row if each of their names is on one line. -/
theorem renderAll_eq_layoutAll : ∀ {ss : List (Stmt Unit)}, DerivableAll ss →
    (∀ x ∈ namesAll ss, Text.OneLine x) →
    "\n".intercalate (renderAll ss) = "\n".intercalate ((layoutAll 0 ss).map Row.text)
  | [], _, _ => rfl
  | s :: ss, h, hx => by
    obtain ⟨hs, hss⟩ := List.forall_mem_append.1 hx
    have hfirst := render_eq_layout h.1 hs
    have hrest := renderAll_eq_layoutAll h.2 hss
    cases ss with
    | nil =>
      rw [renderAll, renderAll, layoutAll, layoutAll, List.append_nil,
        String.intercalate_singleton, hfirst]
    | cons t ts =>
      have hrows : layoutAll 0 (t :: ts) ≠ [] := layoutAll_ne_nil (List.cons_ne_nil t ts) 0
      have htexts : renderAll (t :: ts) ≠ [] := by
        rw [renderAll]
        exact List.cons_ne_nil _ _
      rw [renderAll, layoutAll, List.map_append, String.intercalate_cons_of_ne_nil htexts, hfirst,
        hrest, String.intercalate_append_of_ne_nil (by simpa using layout_ne_nil 0 s)
          (by simpa using hrows)]

end

/-! ### Rows and layouts -/

mutual

/-- The rows of a statement are in its layout, which adds rows for empty bodies. -/
theorem rows_subset_layout : ∀ (s : Stmt Unit) (d : Nat), rows d s ⊆ layout d s
  | .cond c b .none, d => by
    rw [rows, layout]
    exact List.cons_subset_cons _ (subset_orPass (rowsAll_subset_layoutAll b _))
  | .cond c b (.some o), d => by
    rw [rows, layout]
    refine List.cons_subset_cons _ (List.append_subset.2 ⟨?_, ?_⟩)
    · exact List.subset_append_of_subset_left _ (subset_orPass (rowsAll_subset_layoutAll b _))
    · exact List.subset_append_of_subset_right _
        (List.cons_subset_cons _ (subset_orPass (rowsAll_subset_layoutAll o _)))
  | .funcDef _ n ps b, d => by
    rw [rows, layout]
    exact List.cons_subset_cons _ (subset_orPass (rowsAll_subset_layoutAll b _))
  | .simple _, _ => List.Subset.refl _
  | .assign _ _ _, _ => List.Subset.refl _
  | .assert _, _ => List.Subset.refl _
  | .ret _, _ => List.Subset.refl _
  | .expr _, _ => List.Subset.refl _
  | .pass, _ => List.Subset.refl _

/-- The rows of statements are in their layout. -/
theorem rowsAll_subset_layoutAll : ∀ (ss : List (Stmt Unit)) (d : Nat),
    rowsAll d ss ⊆ layoutAll d ss
  | [], _ => List.nil_subset _
  | s :: ss, d => by
    rw [rowsAll, layoutAll]
    refine List.append_subset.2 ⟨?_, ?_⟩
    · exact List.subset_append_of_subset_left _ (rows_subset_layout s d)
    · exact List.subset_append_of_subset_right _ (rowsAll_subset_layoutAll ss d)

end

/-- The rows of derivable statements with proper names are legible. -/
theorem legible_rowsAll {ss : List (Stmt Unit)} {d : Nat} (h : DerivableAll ss)
    (hx : ∀ x ∈ namesAll ss, Identifier x) : ∀ r ∈ rowsAll d ss, r.line.Legible :=
  fun r hr => (formed_layoutAll h hx r (rowsAll_subset_layoutAll ss d hr)).legible

mutual

/-- A statement without empty bodies is laid out in its rows. -/
theorem layout_eq_rows (d : Nat) : ∀ {s : Stmt Unit}, s.Filled → layout d s = rows d s
  | .cond c b .none, h => by
    rw [layout, rows, orPass_of_ne_nil (layoutAll_ne_nil h.1 _), layoutAll_eq_rowsAll _ h.2]
  | .cond c b (.some o), h => by
    obtain ⟨hb, hfilled, ho, hfilled'⟩ := h
    rw [layout, rows, orPass_of_ne_nil (layoutAll_ne_nil hb _), layoutAll_eq_rowsAll _ hfilled,
      orPass_of_ne_nil (layoutAll_ne_nil ho _), layoutAll_eq_rowsAll _ hfilled']
  | .funcDef _ n ps b, h => by
    rw [layout, rows, orPass_of_ne_nil (layoutAll_ne_nil h.1 _), layoutAll_eq_rowsAll _ h.2]
  | .simple _, _ => rfl
  | .assign _ _ _, _ => rfl
  | .assert _, _ => rfl
  | .ret _, _ => rfl
  | .expr _, _ => rfl
  | .pass, _ => rfl

/-- Statements without empty bodies are laid out in their rows. -/
theorem layoutAll_eq_rowsAll (d : Nat) : ∀ {ss : List (Stmt Unit)}, FilledAll ss →
    layoutAll d ss = rowsAll d ss
  | [], _ => rfl
  | _ :: _, h => by
    rw [layoutAll, rowsAll, layout_eq_rows d h.1, layoutAll_eq_rowsAll d h.2]

end

/-- Statements with proper names and no empty body are written row by row. -/
theorem renderAll_eq_rows {ss : List (Stmt Unit)} (h : DerivableAll ss)
    (hx : ∀ x ∈ namesAll ss, Identifier x) (hf : FilledAll ss) :
    "\n".intercalate (renderAll ss) = "\n".intercalate ((rowsAll 0 ss).map Row.text) := by
  rw [renderAll_eq_layoutAll h fun x hmem => (hx x hmem).oneLine, layoutAll_eq_rowsAll 0 hf]

end Stmt

/-! ### Programs -/

namespace Block

/-- The lines of a program, listed in one pass: a line inside `k` bodies has `k` tabs before its own
text, and an empty body is the line `pass`. -/
def listing (b : Block Unit) : List String :=
  (Stmt.layoutAll 0 b).map Row.text

/-- A program that is read from a tree is written as its lines are listed, if no name in it is empty
or holds a line feed or a carriage return. -/
theorem render_eq_listing {b : Block Unit} (hread : ∃ n : Node, n.program = .ok b)
    (hnames : ∀ x ∈ b.names, x ≠ "" ∧ '\n' ∉ x.toList ∧ '\r' ∉ x.toList) :
    b.render = "\n".intercalate b.listing := by
  obtain ⟨n, hn⟩ := hread
  have honeLine : ∀ x ∈ b.names, Text.OneLine x := by
    intro x hx
    obtain ⟨hne, hfeed, hreturn⟩ := hnames x hx
    refine ⟨hne, fun c hc => ⟨?_, ?_⟩⟩
    · rintro rfl
      exact hfeed hc
    · rintro rfl
      exact hreturn hc
  exact Stmt.renderAll_eq_layoutAll (Node.derivable_program hn) honeLine

/-- A function whose name and parameter hold a blank and a tab is written line by line, with a
conditional statement in it that has an empty body, an alternative and several statements on a
line. -/
theorem render_eq_listing_of_nested :
    ∃ n : Node, ∃ b : Block Unit, n.program = .ok b ∧
      b.listing = ["def f g(x\t):", "\tif x\t:", "\t\tpass", "\telse:", "\t\tpass; return"] ∧
      b.render = "def f g(x\t):\n\tif x\t:\n\t\tpass\n\telse:\n\t\tpass; return" := by
  let n : Node := Phrase.file [Phrase.funcDef "f g" ["x\t"] [Phrase.cond (Phrase.name "x\t") []
    (some (Phrase.orElse [Phrase.line [Phrase.pass, Phrase.ret none]]))]]
  let b : Block Unit := [.funcDef () "f g" ["x\t"]
    [.cond (.name "x\t") [] (some [.simple [.pass, .ret none]])]]
  have hread : n.program = .ok b := rfl
  have hnames : ∀ x ∈ b.names, x ≠ "" ∧ '\n' ∉ x.toList ∧ '\r' ∉ x.toList := by decide
  have hlisting : b.listing =
      ["def f g(x\t):", "\tif x\t:", "\t\tpass", "\telse:", "\t\tpass; return"] := by decide
  refine ⟨n, b, hread, hlisting, ?_⟩
  rw [render_eq_listing ⟨n, hread⟩ hnames, hlisting]
  decide

/-- A name that ends in a carriage return loses it where another line follows in its body. -/
example : render ([.cond (.name "a") [.expr (.name "b\r"), .pass] none] : Block Unit) =
    "if a:\n\tb\n\tpass" := by decide

end Block

end ScopeScript
