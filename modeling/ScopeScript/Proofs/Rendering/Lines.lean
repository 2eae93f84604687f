import ScopeScript.Proofs.Rendering.Characters
import ScopeScript.Proofs.Rendering.Clauses

/-!
# Lines of rendered programs

Every line of a rendered program, its indentation aside, is the header of a compound statement or a
row of simple statements. Different lines have different texts: simple statements are read back one
after the other, and a header begins with a keyword that begins none of them.

* `Line.over_text`, `Line.text_ne_empty`: the characters of a line are those of its names and
  printable ones, and it has some if no name is empty.
* `Line.isUnbroken_text`: a legible line holds no tab and no line end.

Main statement:

* `Line.text_injective`: a line is told by its text.
-/

namespace ScopeScript

open Reader

/-! ### Lines -/

/-- A line of a program, its indentation aside. -/
inductive Line where
  /-- The header of a conditional statement. -/
  | header (condition : Expr)
  /-- The header of a function definition. -/
  | definition (name : String) (params : List String)
  /-- The line before an alternative. -/
  | otherwise
  /-- Simple statements in a row. -/
  | clauses (stmts : List (Stmt Unit))

namespace Line

/-- The text of a line. -/
def text : Line → String
  | header c => "if " ++ c.render ++ ":"
  | definition n ps => "def " ++ n ++ "(" ++ ", ".intercalate ps ++ "):"
  | otherwise => "else:"
  | clauses ss => "; ".intercalate (ss.map Stmt.render)

/-- A line that is not empty, whose expressions are legible and whose names are proper. -/
def Legible : Line → Prop
  | header c => c.Legible
  | definition n ps => Identifier n ∧ ∀ p ∈ ps, Identifier p
  | otherwise => True
  | clauses ss => ss ≠ [] ∧ ∀ s ∈ ss, s.Legible

/-- A line of one statement at least, all of them plain. -/
def Plain : Line → Prop
  | header _ | definition _ _ | otherwise => True
  | clauses ss => ss ≠ [] ∧ ∀ s ∈ ss, s.IsPlain

/-- A line of derivable expressions, or of one simple statement at least. -/
def Derivable : Line → Prop
  | header c => c.Derivable
  | definition _ _ | otherwise => True
  | clauses ss => ss ≠ [] ∧ ∀ s ∈ ss, s.IsSimple

/-- The names in a line. -/
def names : Line → List String
  | header c => c.names
  | definition n ps => n :: ps
  | otherwise => []
  | clauses ss => Stmt.namesAll ss

/-- A line as it stands in a program that is read from a tree, with all names of a kind. -/
structure Formed (kind : String → Prop) (l : Line) : Prop where
  /-- The line is derivable. -/
  derivable : l.Derivable
  /-- The names are of the kind. -/
  names : ∀ x ∈ l.names, kind x

/-- A formed line is plain. -/
theorem Formed.plain {kind : String → Prop} {l : Line} (hl : l.Formed kind) : l.Plain := by
  obtain ⟨hderivable, -⟩ := hl
  cases l with
  | header | definition | otherwise => trivial
  | clauses ss => exact ⟨hderivable.1, fun s hs => (hderivable.2 s hs).isPlain⟩

/-- A formed line with proper names is legible. -/
theorem Formed.legible {l : Line} (hl : l.Formed Identifier) : l.Legible := by
  obtain ⟨hderivable, hnames⟩ := hl
  cases l with
  | header c => exact hderivable.legible hnames
  | definition n ps => exact List.forall_mem_cons.1 hnames
  | otherwise => trivial
  | clauses ss =>
    refine ⟨hderivable.1, fun s hs => ?_⟩
    exact (hderivable.2 s hs).legible (Stmt.forall_mem_names hnames s hs)

/-- A simple statement stands on a formed line by itself. -/
theorem formed_clause {kind : String → Prop} {s : Stmt Unit} (hs : s.IsSimple)
    (hx : ∀ x ∈ s.names, kind x) : (clauses [s]).Formed kind where
  derivable := ⟨List.cons_ne_nil _ _, List.forall_mem_singleton.2 hs⟩
  names := List.forall_mem_append.2 ⟨hx, by simp [Stmt.namesAll]⟩

/-- The keyword that leads a line, if it is no row of simple statements. -/
def keyword? : Line → Option String
  | header _ => some "if"
  | definition _ _ => some "def"
  | otherwise => some "else"
  | clauses _ => none

/-- The keyword that leads a text, if no simple statement does. -/
def readKeyword? (text : List Char) : Option String :=
  match Stmt.readClause? text with
  | some _ => none
  | none => some (String.ofList (text.takeWhile Text.isWordChar))

/-- A header of a function definition is the text of a call with a keyword before it and a colon
behind it. -/
theorem text_definition (n : String) (ps : List String) :
    (definition n ps).text = "def " ++ (Expr.call (.name n) (ps.map .name)).render ++ ":" := by
  have hnames : Expr.renderAll (ps.map .name) = ps := by
    induction ps with
    | nil => rfl
    | cons p ps ih => rw [List.map_cons, Expr.renderAll, ih, Expr.render]
  have hcallee : Expr.operandText Strength.atom (Expr.name n).strength (Expr.name n).render = n :=
    if_neg (Nat.lt_irrefl _)
  rw [text, Expr.render, hnames, hcallee]
  apply String.toList_inj.1
  simp

/-- No simple statement begins with the keyword of a header. -/
theorem readKeyword?_of_keyword {w : String} (hnot : w ≠ "not") (hatom : atom? w = none)
    (hw : Text.isWord w = true) (hclause : ∀ text, Stmt.readKeyword? w text = none)
    {text : List Char} (htext : text.head?.any Text.isWordChar = false) :
    readKeyword? (w.toList ++ text) = some w := by
  rw [readKeyword?, Stmt.readClause?_of_keyword hnot hatom hw htext, hclause]
  show some (String.ofList _) = some w
  rw [takeWhile_word (Text.isWord_iff.1 hw).2 htext, String.ofList_toList]

/-- The keyword of a line is told by its text. -/
theorem readKeyword?_text {l : Line} (hl : l.Legible) :
    readKeyword? l.text.toList = l.keyword? := by
  cases l with
  | header c =>
    have htext : (header c).text.toList = "if".toList ++ ' ' :: (c.render.toList ++ [':']) := by
      simp [text]
    rw [htext]
    exact readKeyword?_of_keyword (by decide) rfl rfl (fun _ => rfl) rfl
  | definition n ps =>
    have htext : (definition n ps).text.toList =
        "def".toList ++ ' ' :: (n ++ "(" ++ ", ".intercalate ps ++ "):").toList := by
      simp [text]
    rw [htext]
    exact readKeyword?_of_keyword (by decide) rfl rfl (fun _ => rfl) rfl
  | otherwise =>
    have htext : otherwise.text.toList = "else".toList ++ [':'] := rfl
    rw [htext]
    exact readKeyword?_of_keyword (by decide) rfl rfl (fun _ => rfl) rfl
  | clauses ss =>
    obtain ⟨hne, hlegible⟩ := hl
    obtain ⟨s, ss, rfl⟩ := List.exists_cons_of_ne_nil hne
    rw [text, Stmt.toList_intercalate_semicolon, readKeyword?,
      Stmt.readClause?_render (hlegible s List.mem_cons_self) (Stmt.ends_textTail ss)]
    rfl

/-- What stands between a keyword and the colon of a header is told by the text. -/
theorem eq_of_header_eq {e e' : Expr} (w : String) (he : e.Legible) (he' : e'.Legible)
    (h : w ++ e.render ++ ":" = w ++ e'.render ++ ":") : e = e' := by
  have htext : e.render.toList ++ ":".toList = e'.render.toList ++ ":".toList := by
    have hlist := congrArg String.toList h
    simpa only [String.toList_append, List.append_assoc, List.append_cancel_left_eq] using hlist
  have hread : Expr.read? (e.render.toList ++ ":".toList) = some (e, ":".toList) :=
    Expr.read?_render he (Stmt.follows_colon [])
  have hread' : Expr.read? (e'.render.toList ++ ":".toList) = some (e', ":".toList) :=
    Expr.read?_render he' (Stmt.follows_colon [])
  rw [htext, hread'] at hread
  exact (Prod.mk.inj (Option.some.inj hread)).1.symm

/-- A header of a function definition with proper names is legible as a call. -/
theorem legible_call {n : String} {ps : List String} (h : (definition n ps).Legible) :
    (Expr.call (.name n) (ps.map .name)).Legible := by
  refine ⟨h.1, Expr.legibleAll_iff.2 fun e he => ?_⟩
  obtain ⟨p, hp, rfl⟩ := List.mem_map.1 he
  exact h.2 p hp

/-- A line is told by its text. -/
theorem text_injective {l l' : Line} (hl : l.Legible) (hl' : l'.Legible) (h : l.text = l'.text) :
    l = l' := by
  have hkeyword : l.keyword? = l'.keyword? := by
    rw [← readKeyword?_text hl, h, readKeyword?_text hl']
  cases l with
  | header c =>
    cases l' with
    | header c' => rw [eq_of_header_eq "if " hl hl' h]
    | _ => simp [keyword?] at hkeyword
  | definition n ps =>
    cases l' with
    | definition n' ps' =>
      rw [text_definition, text_definition] at h
      have hcall := eq_of_header_eq "def " (legible_call hl) (legible_call hl') h
      rw [Expr.call.injEq, Expr.name.injEq] at hcall
      have hparams : ps = ps' := (List.map_inj_right fun _ _ => Expr.name.inj).1 hcall.2
      rw [hcall.1, hparams]
    | _ => simp [keyword?] at hkeyword
  | otherwise =>
    cases l' with
    | otherwise => rfl
    | _ => simp [keyword?] at hkeyword
  | clauses ss =>
    cases l' with
    | clauses ss' =>
      rw [Stmt.eq_of_intercalate_eq hl.1 hl'.1 hl.2 hl'.2 h]
    | _ => simp [keyword?] at hkeyword

end Line

/-! ### Characters of lines -/

namespace Text

/-- Whether a text holds no tab, no line feed and no carriage return. -/
def isUnbroken (s : String) : Bool :=
  s.toList.all fun c => c != '\t' && c != '\n' && c != '\r'

/-- A text is unbroken if none of its characters is a tab or part of a line end. -/
theorem isUnbroken_iff {s : String} :
    isUnbroken s = true ↔ Over (fun c => c ≠ '\t' ∧ c ≠ '\n' ∧ c ≠ '\r') s := by
  simp [isUnbroken, Over, and_assoc]

/-- A word is unbroken. -/
theorem isUnbroken_of_isWord {s : String} (h : isWord s = true) : isUnbroken s = true := by
  refine isUnbroken_iff.2 fun c hc => ?_
  have hword : isWordChar c = true := (isWord_iff.1 h).2 c hc
  exact ⟨ne_of_kind hword rfl, ne_of_kind hword rfl, ne_of_kind hword rfl⟩

end Text

/-- A proper name is on one line. -/
theorem Identifier.oneLine {x : String} (hx : Identifier x) : Text.OneLine x := by
  obtain ⟨hne, hword⟩ := Text.isWord_iff.1 hx.isWord
  refine ⟨fun h => hne (by rw [h]; rfl), fun c hc => ?_⟩
  exact ⟨Text.ne_of_kind (hword c hc) rfl, Text.ne_of_kind (hword c hc) rfl⟩

namespace Line

variable {l : Line}

/-- The characters of a line are those of its names and printable ones. -/
theorem over_text {P : Char → Prop} (hP : Text.HasPrintable P) (hl : l.Plain)
    (hx : ∀ x ∈ l.names, Text.Over P x) : Text.Over P l.text := by
  cases l with
  | header c =>
    rw [text, Text.over_append, Text.over_append]
    exact ⟨⟨hP.over rfl, Expr.over_render hP hx⟩, hP.over rfl⟩
  | definition n ps =>
    obtain ⟨hn, hps⟩ := List.forall_mem_cons.1 hx
    simp only [text, Text.over_append]
    exact ⟨⟨⟨⟨hP.over rfl, hn⟩, hP.over rfl⟩, Text.over_intercalate (hP.over rfl) hps⟩,
      hP.over rfl⟩
  | otherwise => exact hP.over rfl
  | clauses ss =>
    refine Text.over_intercalate (hP.over rfl) (List.forall_mem_map.2 fun s hs => ?_)
    exact Stmt.over_render hP (hl.2 s hs) (Stmt.forall_mem_names hx s hs)

/-- A line is not written as the empty text if no name in it is empty. -/
theorem text_ne_empty (hl : l.Plain) (hx : ∀ x ∈ l.names, x ≠ "") : l.text ≠ "" := by
  cases l with
  | header | definition | otherwise => simp [text]
  | clauses ss =>
    obtain ⟨hne, hplain⟩ := hl
    obtain ⟨s, ss, rfl⟩ := List.exists_cons_of_ne_nil hne
    have hs : s.render ≠ "" := Stmt.render_ne_empty (hplain s List.mem_cons_self)
      (Stmt.forall_mem_names hx s List.mem_cons_self)
    cases ss with
    | nil => simpa [text] using hs
    | cons t ts => simp [text]

/-- A plain line is on one line if all names in it are. -/
theorem oneLine_text (hl : l.Plain) (hx : ∀ x ∈ l.names, Text.OneLine x) :
    Text.OneLine l.text := by
  have hprintable : Text.HasPrintable fun c => c ≠ '\n' ∧ c ≠ '\r' := fun c hc =>
    ⟨Text.ne_of_kind hc rfl, Text.ne_of_kind hc rfl⟩
  exact ⟨text_ne_empty hl fun x h => (hx x h).ne_empty, over_text hprintable hl fun x h =>
    (hx x h).unbroken⟩

/-- A legible line is plain. -/
theorem Legible.plain (hl : l.Legible) : l.Plain := by
  cases l with
  | header | definition | otherwise => trivial
  | clauses ss => exact ⟨hl.1, fun s hs => (hl.2 s hs).isPlain⟩

/-- The names in a legible line are proper. -/
theorem Legible.identifier (hl : l.Legible) : ∀ x ∈ l.names, Identifier x := by
  cases l with
  | header c => exact Expr.Legible.identifier hl
  | definition n ps => exact List.forall_mem_cons.2 hl
  | otherwise => simp [names]
  | clauses ss => exact Stmt.identifier_of_legible hl.2

/-- The text of a legible line is on one line. -/
theorem Legible.oneLine_text (hl : l.Legible) : Text.OneLine l.text :=
  Line.oneLine_text hl.plain fun x hx => (hl.identifier x hx).oneLine

/-- The text of a legible line is unbroken. -/
theorem isUnbroken_text (hl : l.Legible) : Text.isUnbroken l.text = true := by
  have hprintable : Text.HasPrintable fun c => c ≠ '\t' ∧ c ≠ '\n' ∧ c ≠ '\r' := fun c hc =>
    ⟨Text.ne_of_kind hc rfl, Text.ne_of_kind hc rfl, Text.ne_of_kind hc rfl⟩
  refine Text.isUnbroken_iff.2 (over_text hprintable hl.plain fun x hx => ?_)
  exact Text.isUnbroken_iff.1 (Text.isUnbroken_of_isWord (hl.identifier x hx).isWord)

end Line

end ScopeScript
