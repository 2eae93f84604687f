import ScopeScript.Proofs.Rendering.Names

/-!
# Rendered simple statements are read back

The simple statements on a line of a rendered program. What leads a simple statement tells which
kind it is: a keyword, the target of an assignment, or an expression that no sign of an assignment
follows. Several of them on one line are read one after the other.

* `Stmt.readClause?`: the simple statement that leads a text.

Main statements:

* `Stmt.readClause?_render`: a simple statement is read back from its text.
* `Stmt.eq_of_intercalate_eq`: simple statements in a row are told by their text.
-/

namespace ScopeScript

open Reader

/-! ### Readers -/

/-- The expressions that lead a text, a comma between each two, with the text that is left. They are
read as the arguments of a call that is never closed. -/
def Expr.readAll? (text : List Char) : Option (List Expr × List Char) :=
  match run (.operand [.arguments .none []] text) with
  | .link [.arguments _ before] e rest => some (before ++ [e], rest)
  | _ => .none

namespace Stmt

/-- The value of an assignment, if the text brings one. -/
def readValue? : List Char → Option (Option Expr × List Char)
  | ' ' :: '=' :: ' ' :: text => (Expr.read? text).map fun p => (some p.1, p.2)
  | text => some (none, text)

/-- The rest of a simple statement that the expression `e` leads: a hint or a value if `e` is the
target of an assignment, else nothing. -/
def readTail? (e : Expr) (text : List Char) : Option (Stmt Unit × List Char) :=
  match text, e with
  | ':' :: ' ' :: rest, .name x =>
    (Expr.read? rest).bind fun p =>
      (readValue? p.2).map fun q => (.assign x (some p.1) q.1, q.2)
  | ' ' :: '=' :: ' ' :: _, .name x => (readValue? text).map fun q => (.assign x none q.1, q.2)
  | _, _ => some (.expr e, text)

/-- The rest of a simple statement that a keyword leads. -/
def readKeyword? (w : String) (text : List Char) : Option (Stmt Unit × List Char) :=
  if w = "pass" then some (.pass, text)
  else if w = "return" then
    match text with
    | ' ' :: rest => (Expr.read? rest).map fun p => (.ret (some p.1), p.2)
    | _ => some (.ret none, text)
  else if w = "assert" then (Expr.readAll? (text.drop 1)).map fun p => (.assert p.1, p.2)
  else none

/-- The simple statement that leads a text, with the text that is left. -/
def readClause? (text : List Char) : Option (Stmt Unit × List Char) :=
  match Expr.read? text with
  | some (e, rest) => readTail? e rest
  | none =>
    readKeyword? (String.ofList (text.takeWhile Text.isWordChar))
      (text.dropWhile Text.isWordChar)

/-! ### Simple statements are read back -/

/-- A text that may follow a simple statement: nothing, or a semicolon. -/
def Ends (text : List Char) : Prop :=
  ∀ c ∈ text.head?, c = ';'

section

variable {text rest : List Char}

/-- Nothing follows a simple statement, or a semicolon does. -/
theorem Ends.nil_or_semicolon (h : Ends rest) : rest = [] ∨ ∃ cs, rest = ';' :: cs := by
  cases rest with
  | nil => exact .inl rfl
  | cons c cs =>
    obtain rfl := h c rfl
    exact .inr ⟨cs, rfl⟩

/-- What follows a simple statement does not prolong its last word, and leads no link. -/
theorem Ends.parted_and_link? (h : Ends rest) :
    rest.head?.any Text.isWordChar = false ∧ link? rest = none := by
  rcases h.nil_or_semicolon with rfl | ⟨cs, rfl⟩ <;> exact ⟨rfl, rfl⟩

/-- A text that prolongs no word and leads no link follows everything. -/
theorem follows_of_link?_eq_none (hparted : text.head?.any Text.isWordChar = false)
    (hlink : link? text = none) : Follows 0 text where
  parted := hparted
  pull_le := by rw [pull, hlink, Option.elim_none]

/-- What follows a simple statement follows everything. -/
theorem Ends.follows (h : Ends rest) : Follows 0 rest :=
  follows_of_link?_eq_none h.parted_and_link?.1 h.parted_and_link?.2

/-- A colon follows everything. -/
theorem follows_colon (rest : List Char) : Follows 0 (':' :: rest) :=
  follows_of_link?_eq_none rfl rfl

/-- The sign of an assignment follows everything. -/
theorem follows_assigned (rest : List Char) : Follows 0 (' ' :: '=' :: ' ' :: rest) :=
  follows_of_link?_eq_none rfl rfl

/-- Expressions with a comma between each two are read back. -/
theorem readAll?_render {es : List Expr} (hne : es ≠ []) (hes : ∀ e ∈ es, e.Legible)
    (hrest : Ends rest) :
    Expr.readAll? ((", ".intercalate (es.map Expr.render)).toList ++ rest) = some (es, rest) := by
  obtain ⟨init, e, rfl⟩ := List.eq_nil_or_concat es |>.resolve_left hne
  rw [List.concat_eq_append] at hes ⊢
  obtain ⟨hinit, he⟩ := List.forall_mem_append.1 hes
  have hstop : step (.link [.arguments .none init] e rest) = none := by
    rw [step, reduce?_of_fill?_eq_none rfl]
    show (link? rest).bind _ = none
    rw [hrest.parted_and_link?.2, Option.bind_none]
  rw [Expr.readAll?, ← Expr.renderAll_eq_map,
    Expr.run_arguments (fun a ha => Expr.recovered (hinit a ha))
      (Expr.recovered (he e List.mem_cons_self)) hrest.follows, List.nil_append,
    run_of_stuck hstop]

/-- A simple statement that a name leads is read from behind the name. -/
theorem readClause?_of_identifier {x : String} (hx : Identifier x) (htext : Follows 0 text) :
    readClause? (x.toList ++ text) = readTail? (.name x) text := by
  have hread : Expr.read? (x.toList ++ text) = some (.name x, text) :=
    Expr.read?_render (e := .name x) hx htext
  rw [readClause?, hread]

/-- A simple statement that a keyword leads is read from behind the keyword. -/
theorem readClause?_of_keyword {w : String} (hnot : w ≠ "not") (hatom : atom? w = none)
    (hw : Text.isWord w = true) (htext : text.head?.any Text.isWordChar = false) :
    readClause? (w.toList ++ text) = readKeyword? w text := by
  have hword := (Text.isWord_iff.1 hw).2
  rw [readClause?, Expr.read?_eq_none hnot hatom hw htext]
  show readKeyword? _ _ = _
  rw [takeWhile_word hword htext, dropWhile_word hword htext, String.ofList_toList]

/-- The value of an assignment is read back. -/
theorem readValue?_render {value : Option Expr} (hvalue : ∀ e ∈ value, e.Legible)
    (hrest : Ends rest) :
    readValue? ((value.elim "" fun v => " = " ++ v.render).toList ++ rest) =
      some (value, rest) := by
  cases value with
  | none => rcases hrest.nil_or_semicolon with rfl | ⟨cs, rfl⟩ <;> rfl
  | some v =>
    have hv : v.Legible := hvalue v rfl
    have htext : (" = " ++ v.render).toList ++ rest =
        ' ' :: '=' :: ' ' :: (v.render.toList ++ rest) := by
      simp
    rw [Option.elim_some, htext, readValue?, Expr.read?_render hv hrest.follows, Option.map_some]

/-- The value of an assignment follows everything. -/
theorem follows_value (value : Option Expr) (hrest : Ends rest) :
    Follows 0 ((value.elim "" fun v => " = " ++ v.render).toList ++ rest) := by
  cases value with
  | none => exact hrest.follows
  | some v =>
    rw [Option.elim_some, String.toList_append, List.append_assoc]
    exact follows_assigned _

/-- An assignment is read back from its text. -/
theorem readClause?_assign {x : String} {hint value : Option Expr}
    (hs : (Stmt.assign x hint value : Stmt Unit).Legible) (hrest : Ends rest) :
    readClause? ((Stmt.assign x hint value : Stmt Unit).render.toList ++ rest) =
      some (.assign x hint value, rest) := by
  obtain ⟨hx, hbrings, hhint, hvalue⟩ := hs
  have hread := readValue?_render hvalue hrest
  cases hint with
  | none =>
    obtain ⟨v, rfl⟩ := Option.ne_none_iff_exists'.1 (hbrings rfl)
    have htext : (Stmt.assign x none (some v) : Stmt Unit).render.toList ++ rest =
        x.toList ++ ' ' :: '=' :: ' ' :: (v.render.toList ++ rest) := by
      simp [Stmt.render]
    rw [Option.elim_some, String.toList_append, List.append_assoc] at hread
    rw [htext, readClause?_of_identifier hx (follows_assigned _)]
    show (readValue? (" = ".toList ++ (v.render.toList ++ rest))).map _ = _
    rw [hread, Option.map_some]
  | some h =>
    have htext : (Stmt.assign x (some h) value : Stmt Unit).render.toList ++ rest =
        x.toList ++ ':' :: ' ' :: (h.render.toList ++
          ((value.elim "" fun v => " = " ++ v.render).toList ++ rest)) := by
      cases value <;> simp [Stmt.render]
    rw [htext, readClause?_of_identifier hx (follows_colon _), readTail?,
      Expr.read?_render (hhint h rfl) (follows_value value hrest), Option.bind_some, hread,
      Option.map_some]

/-- A simple statement is read back from its text. -/
theorem readClause?_render {s : Stmt Unit} (hs : s.Legible) (hrest : Ends rest) :
    readClause? (s.render.toList ++ rest) = some (s, rest) := by
  cases s with
  | assign x hint value => exact readClause?_assign hs hrest
  | assert es =>
    obtain ⟨hne, hes⟩ := hs
    have htext : (Stmt.assert es : Stmt Unit).render.toList ++ rest =
        "assert".toList ++ ' ' :: ((", ".intercalate (es.map Expr.render)).toList ++ rest) := by
      simp [Stmt.render]
    rw [htext, readClause?_of_keyword (by decide) rfl rfl rfl]
    show (Expr.readAll? _).map _ = _
    rw [List.drop_one, List.tail_cons, readAll?_render hne hes hrest, Option.map_some]
  | ret value =>
    cases value with
    | none =>
      have hkeyword := readClause?_of_keyword (w := "return") (by decide) rfl rfl
        hrest.parted_and_link?.1
      rcases hrest.nil_or_semicolon with rfl | ⟨cs, rfl⟩ <;> exact hkeyword
    | some v =>
      have htext : (Stmt.ret (some v) : Stmt Unit).render.toList ++ rest =
          "return".toList ++ ' ' :: (v.render.toList ++ rest) := by
        simp [Stmt.render]
      rw [htext, readClause?_of_keyword (by decide) rfl rfl rfl]
      show (Expr.read? _).map _ = _
      rw [Expr.read?_render (hs v rfl) hrest.follows, Option.map_some]
  | expr e =>
    have hread := Expr.read?_render (e := e) hs hrest.follows
    rw [Stmt.render, readClause?, hread]
    rcases hrest.nil_or_semicolon with rfl | ⟨cs, rfl⟩ <;> rfl
  | pass =>
    exact readClause?_of_keyword (by decide) rfl rfl hrest.parted_and_link?.1
  | cond | funcDef | simple => exact hs.elim

end

/-! ### Several simple statements -/

/-- The texts of simple statements, a semicolon before each. -/
def textTail : List (Stmt Unit) → List Char
  | [] => []
  | s :: ss => ';' :: ' ' :: (s.render.toList ++ textTail ss)

/-- Simple statements with a semicolon between each two. -/
theorem toList_intercalate_semicolon (s : Stmt Unit) (ss : List (Stmt Unit)) :
    ("; ".intercalate ((s :: ss).map Stmt.render)).toList = s.render.toList ++ textTail ss := by
  induction ss generalizing s with
  | nil => simp [textTail]
  | cons t ts ih =>
    have hrest := ih t
    rw [List.map_cons] at hrest
    rw [List.map_cons, List.map_cons, String.intercalate_cons_cons, String.toList_append,
      String.toList_append, hrest, List.append_assoc]
    rfl

/-- A semicolon comes before every further simple statement. -/
theorem ends_textTail (ss : List (Stmt Unit)) : Ends (textTail ss) := by
  cases ss with
  | nil => simp [Ends, textTail]
  | cons s ss => simp [Ends, textTail]

/-- The first of several simple statements is told by the text, and so is the text of the others. -/
theorem eq_of_text_eq {s s' : Stmt Unit} {text text' : List Char} (hs : s.Legible)
    (hs' : s'.Legible) (htext : Ends text) (htext' : Ends text')
    (h : s.render.toList ++ text = s'.render.toList ++ text') : s = s' ∧ text = text' := by
  have hread := readClause?_render hs htext
  rw [h, readClause?_render hs' htext'] at hread
  obtain ⟨rfl, rfl⟩ := Prod.mk.inj (Option.some.inj hread)
  exact ⟨rfl, rfl⟩

/-- Further simple statements are told by their texts. -/
theorem textTail_injective {ss ss' : List (Stmt Unit)} (hs : ∀ s ∈ ss, s.Legible)
    (hs' : ∀ s ∈ ss', s.Legible) (h : textTail ss = textTail ss') : ss = ss' := by
  induction ss generalizing ss' with
  | nil =>
    cases ss' with
    | nil => rfl
    | cons s' ss' => cases h
  | cons s ss ih =>
    cases ss' with
    | nil => cases h
    | cons s' ss' =>
      obtain ⟨hlegible, hss⟩ := List.forall_mem_cons.1 hs
      obtain ⟨hlegible', hss'⟩ := List.forall_mem_cons.1 hs'
      rw [textTail, textTail, List.cons_inj_right, List.cons_inj_right] at h
      obtain ⟨rfl, htail⟩ := eq_of_text_eq hlegible hlegible' (ends_textTail ss)
        (ends_textTail ss') h
      rw [ih hss hss' htail]

/-- Simple statements in a row are told by their text. -/
theorem eq_of_intercalate_eq {ss ss' : List (Stmt Unit)} (hne : ss ≠ []) (hne' : ss' ≠ [])
    (hs : ∀ s ∈ ss, s.Legible) (hs' : ∀ s ∈ ss', s.Legible)
    (h : "; ".intercalate (ss.map Stmt.render) = "; ".intercalate (ss'.map Stmt.render)) :
    ss = ss' := by
  obtain ⟨t, ts, rfl⟩ := List.exists_cons_of_ne_nil hne
  obtain ⟨t', ts', rfl⟩ := List.exists_cons_of_ne_nil hne'
  obtain ⟨ht, hts⟩ := List.forall_mem_cons.1 hs
  obtain ⟨ht', hts'⟩ := List.forall_mem_cons.1 hs'
  have htext := congrArg String.toList h
  rw [toList_intercalate_semicolon, toList_intercalate_semicolon] at htext
  obtain ⟨rfl, htail⟩ := eq_of_text_eq ht ht' (ends_textTail ts) (ends_textTail ts') htext
  rw [textTail_injective hts hts' htail]

end Stmt

end ScopeScript
