import ScopeScript.Proofs.Literal.Decimal
import ScopeScript.Syntax.OfTree.Expression

/-!
# The grammar of literals

Which texts are integer literals and which word each denotes, said without the reader. A literal is
a digit other than zero before further digits, or a zero before further zeros; each of the further
digits may have one underscore before it. The digits denote the word.

* `Literal.Run`: digits in a row, in which underscores separate.
* `Literal.Spelling`: the two forms of a literal.
* `Literal.Denotes`: a text and the word that it denotes.

Main statements:

* `Literal.read?_eq_some_iff`: the reader accepts exactly the literals, each with its word.
* `Node.number_by_grammar`: what an atom with a number is read as, told by the grammar.
-/

namespace ScopeScript.Literal

/-- Digits of a kind in a row, each of which may have one underscore before it. -/
inductive Run (kind : Char → Prop) : List Char → Prop where
  /-- No further digit. -/
  | nil : Run kind []
  /-- A digit. -/
  | digit {c : Char} {rest : List Char} (hc : kind c) (h : Run kind rest) : Run kind (c :: rest)
  /-- A digit with an underscore before it. -/
  | spaced {c : Char} {rest : List Char} (hc : kind c) (h : Run kind rest) :
    Run kind ('_' :: c :: rest)

/-- The form of a literal. -/
inductive Spelling : List Char → Prop where
  /-- A digit other than zero leads any digits. -/
  | number {c : Char} {rest : List Char} (hc : c.isDigit = true) (hne : c ≠ '0')
    (h : Run (·.isDigit = true) rest) : Spelling (c :: rest)
  /-- A zero leads zeros only. -/
  | zeros {rest : List Char} (h : Run (· = '0') rest) : Spelling ('0' :: rest)

/-- The text is a literal that denotes the word. -/
structure Denotes (s : String) (n : Int64) : Prop where
  /-- The text has the form of a literal. -/
  spelling : Spelling s.toList
  /-- Without underscores, its digits denote the word. -/
  value : n.toInt = Text.valueOf (s.toList.filter (· != '_'))

/-! ### The reader and the grammar -/

/-- No digit is an underscore. -/
theorem ne_underscore_of_isDigit {c : Char} (hc : c.isDigit = true) : c ≠ '_' := by
  rintro rfl
  exact absurd hc (by decide)

/-- A digit is not left out with the underscores. -/
theorem filter_cons_of_isDigit {c : Char} (hc : c.isDigit = true) (cs : List Char) :
    (c :: cs).filter (· != '_') = c :: cs.filter (· != '_') :=
  List.filter_cons_of_pos (bne_iff_ne.2 (ne_underscore_of_isDigit hc))

/-- An underscore is left out. -/
theorem filter_cons_underscore (cs : List Char) :
    ('_' :: cs).filter (· != '_') = cs.filter (· != '_') :=
  List.filter_cons_of_neg (by decide)

/-- What the tests of the reader ask of a text behind a digit: digits and underscores, none of these
at the end and no two together. -/
structure Continues (cs : List Char) : Prop where
  /-- The text is made of digits and underscores. -/
  made : ∀ c ∈ cs, c.isDigit = true ∨ c = '_'
  /-- No underscore stands at the end. -/
  last : cs.getLast? ≠ some '_'
  /-- No two underscores stand together. -/
  single : hasDoubleUnderscore cs = false

/-- A digit may stand before what stands behind a digit. -/
theorem continues_cons_iff {c : Char} {rest : List Char} (hc : c.isDigit = true) :
    Continues (c :: rest) ↔ Continues rest := by
  have hne := ne_underscore_of_isDigit hc
  have hlast : (c :: rest).getLast? = some '_' ↔ rest.getLast? = some '_' := by
    cases h : rest.getLast? <;> simp [List.getLast?_cons, h, hne]
  have hsingle : hasDoubleUnderscore (c :: rest) = hasDoubleUnderscore rest := by
    simp [hasDoubleUnderscore, hne]
  constructor
  · rintro ⟨hmade, hl, hs⟩
    exact ⟨(List.forall_mem_cons.1 hmade).2, mt hlast.2 hl, hsingle ▸ hs⟩
  · rintro ⟨hmade, hl, hs⟩
    exact ⟨List.forall_mem_cons.2 ⟨.inl hc, hmade⟩, mt hlast.1 hl, hsingle.trans hs⟩

/-- An underscore stands behind a digit exactly if a digit follows it. -/
theorem continues_underscore_iff {cs : List Char} :
    Continues ('_' :: cs) ↔ ∃ c rest, cs = c :: rest ∧ c.isDigit = true ∧ Continues rest := by
  constructor
  · rintro ⟨hmade, hlast, hsingle⟩
    cases cs with
    | nil => exact absurd rfl hlast
    | cons c rest =>
      rw [hasDoubleUnderscore, Bool.or_eq_false_iff] at hsingle
      have hne : c ≠ '_' := by
        rintro rfl
        simp at hsingle
      obtain ⟨-, hmade⟩ := List.forall_mem_cons.1 hmade
      have hc : c.isDigit = true := (hmade c List.mem_cons_self).resolve_right hne
      rw [List.getLast?_cons_cons] at hlast
      exact ⟨c, rest, rfl, hc, (continues_cons_iff hc).1 ⟨hmade, hlast, hsingle.2⟩⟩
  · rintro ⟨c, rest, rfl, hc, h⟩
    obtain ⟨hmade, hlast, hsingle⟩ := (continues_cons_iff hc).2 h
    refine ⟨List.forall_mem_cons.2 ⟨.inr rfl, hmade⟩, ?_, ?_⟩
    · rwa [List.getLast?_cons_cons]
    · rw [hasDoubleUnderscore, hsingle]
      simp [ne_underscore_of_isDigit hc]

/-- The tests on a text behind a digit say that it is digits in a row. -/
theorem continues_iff_run (cs : List Char) : Continues cs ↔ Run (·.isDigit = true) cs := by
  match cs with
  | [] => exact ⟨fun _ => .nil, fun _ => ⟨by simp, by simp, rfl⟩⟩
  | c :: rest =>
    by_cases hc : c.isDigit = true
    · rw [continues_cons_iff hc, continues_iff_run rest]
      constructor
      · exact .digit hc
      · rintro (_ | ⟨-, h⟩ | ⟨hd, h⟩)
        · exact h
        · exact absurd rfl (ne_underscore_of_isDigit hc)
    · -- What is no digit has to be an underscore, with a digit behind it.
      constructor
      · intro h
        obtain rfl : c = '_' := (h.made c List.mem_cons_self).resolve_left hc
        obtain ⟨d, rest', rfl, hd, h⟩ := continues_underscore_iff.1 h
        exact .spaced hd ((continues_iff_run rest').1 h)
      · rintro (_ | ⟨hd, h⟩ | @⟨d, rest', hd, h⟩)
        · exact absurd hd hc
        · exact continues_underscore_iff.2 ⟨d, rest', rfl, hd, (continues_iff_run rest').2 h⟩

/-- A well-formed text is a digit with digits in a row behind it. -/
theorem isWellFormed_iff {cs : List Char} :
    isWellFormed cs = true ↔
      ∃ c rest, cs = c :: rest ∧ c.isDigit = true ∧ Run (·.isDigit = true) rest := by
  have htests : isWellFormed cs = true ↔ cs ≠ [] ∧ cs.head? ≠ some '_' ∧ Continues cs := by
    simp only [isWellFormed, Bool.and_eq_true, bne_iff_ne, List.all_eq_true, Bool.or_eq_true,
      beq_iff_eq, Bool.not_eq_true']
    constructor
    · rintro ⟨⟨⟨⟨hne, hmade⟩, hhead⟩, hlast⟩, hsingle⟩
      exact ⟨hne, hhead, hmade, hlast, hsingle⟩
    · rintro ⟨hne, hhead, h⟩
      exact ⟨⟨⟨⟨hne, h.made⟩, hhead⟩, h.last⟩, h.single⟩
  rw [htests]
  constructor
  · rintro ⟨hne, hhead, h⟩
    obtain ⟨c, rest, rfl⟩ := List.exists_cons_of_ne_nil hne
    have hc : c.isDigit = true :=
      (h.made c List.mem_cons_self).resolve_right fun heq => hhead (congrArg some heq)
    exact ⟨c, rest, rfl, hc, (continues_iff_run rest).1 ((continues_cons_iff hc).1 h)⟩
  · rintro ⟨c, rest, rfl, hc, h⟩
    have hne : c ≠ '_' := ne_underscore_of_isDigit hc
    exact ⟨List.cons_ne_nil c rest, fun heq => hne (Option.some.inj heq),
      (continues_cons_iff hc).2 ((continues_iff_run rest).2 h)⟩

/-- The zeros in a row are the digits in a row that are all zeros. -/
theorem run_zero_iff {cs : List Char} :
    Run (· = '0') cs ↔
      Run (·.isDigit = true) cs ∧ (cs.filter (· != '_')).all (· == '0') = true := by
  constructor
  · intro h
    induction h with
    | nil => exact ⟨.nil, rfl⟩
    | digit hc _ ih =>
      subst hc
      exact ⟨.digit rfl ih.1, by simpa using ih.2⟩
    | spaced hc _ ih =>
      subst hc
      exact ⟨.spaced rfl ih.1, by simpa using ih.2⟩
  · rintro ⟨h, hall⟩
    induction h with
    | nil => exact .nil
    | digit hc _ ih =>
      rw [filter_cons_of_isDigit hc, List.all_cons, Bool.and_eq_true, beq_iff_eq] at hall
      exact .digit hall.1 (ih hall.2)
    | spaced hc _ ih =>
      rw [filter_cons_underscore, filter_cons_of_isDigit hc, List.all_cons, Bool.and_eq_true,
        beq_iff_eq] at hall
      exact .spaced hall.1 (ih hall.2)

/-- A zero leads other digits exactly if it stands first and not all that follow are zeros. -/
theorem hasLeadingZero_cons (c : Char) (ds : List Char) :
    hasLeadingZero (c :: ds) = (c == '0' && !ds.all (· == '0')) := by
  have hall : (!ds.all (· == '0')) = ds.any (· != '0') := List.not_all_eq_any_not
  rw [hall]
  by_cases hc : c = '0'
  · subst hc
    cases ds <;> simp [hasLeadingZero]
  · simp [hasLeadingZero, beq_false_of_ne hc]

/-- The tests of the reader say that the text has the form of a literal. -/
theorem spelling_iff {cs : List Char} :
    Spelling cs ↔
      isWellFormed cs = true ∧ hasLeadingZero (cs.filter (· != '_')) = false := by
  rw [isWellFormed_iff]
  constructor
  · rintro (⟨hc, hne, h⟩ | h)
    · refine ⟨⟨_, _, rfl, hc, h⟩, ?_⟩
      rw [filter_cons_of_isDigit hc, hasLeadingZero_cons, beq_false_of_ne hne, Bool.false_and]
    · obtain ⟨hrun, hall⟩ := run_zero_iff.1 h
      refine ⟨⟨_, _, rfl, rfl, hrun⟩, ?_⟩
      rw [filter_cons_of_isDigit rfl, hasLeadingZero_cons, hall, Bool.not_true, Bool.and_false]
  · rintro ⟨⟨c, rest, rfl, hc, hrun⟩, hlead⟩
    rw [filter_cons_of_isDigit hc, hasLeadingZero_cons] at hlead
    by_cases hzero : c = '0'
    · subst hzero
      exact .zeros (run_zero_iff.2 ⟨hrun, by simpa using hlead⟩)
    · exact .number hc hzero hrun

/-- The reader accepts exactly the literals, each with the word that it denotes. -/
theorem read?_eq_some_iff {s : String} {n : Int64} : read? s = some n ↔ Denotes s n := by
  rw [read?_eq_some_iff_tests, ← and_assoc, ← spelling_iff, Word.ofInt?_eq_some_iff]
  exact ⟨fun h => ⟨h.1, h.2⟩, fun h => ⟨h.spelling, h.value⟩⟩

/-- The reader refuses a text exactly when it denotes no word. -/
theorem read?_eq_none_iff {s : String} : read? s = none ↔ ∀ n, ¬ Denotes s n := by
  rw [Option.eq_none_iff_forall_not_mem]
  exact forall_congr' fun n => not_congr read?_eq_some_iff

/-- A text without its underscores. -/
def digitsOf (s : String) : List Char :=
  s.toList.filter (· != '_')

/-- Of the texts that have the form of a literal, those with a value in the range of words denote
one. -/
theorem exists_denotes_iff {s : String} :
    (∃ n, Denotes s n) ↔
      Spelling s.toList ∧ Text.valueOf (digitsOf s) ≤ 9223372036854775807 := by
  constructor
  · rintro ⟨n, h⟩
    have hle := Int64.toInt_le n
    rw [Word.toInt_maxValue, h.value] at hle
    exact ⟨h.spelling, by exact_mod_cast hle⟩
  · rintro ⟨hspelling, hle⟩
    cases hword : Word.ofInt? (Text.valueOf (digitsOf s)) with
    | none =>
      rw [Word.ofInt?_eq_none_iff] at hword
      omega
    | some n => exact ⟨n, hspelling, Word.ofInt?_eq_some_iff.1 hword⟩

end ScopeScript.Literal

namespace ScopeScript.Node

/-! ### Numbers in trees -/

/-- An atom with a number and without a name is read as the number, or it is at fault for a text
that is no literal. -/
theorem toExpr_of_number {n : Node} {s : String} (hrule : n.rule = .atom)
    (hname : n.token? .name = none) (hnumber : n.token? .number = some s) :
    n.toExpr =
      match Literal.read? s with
      | some v => .ok (.int v)
      | none => .error (.invalidLiteral s) := by
  obtain ⟨rule, items⟩ := n
  obtain rfl : rule = .atom := hrule
  simp only [toExpr, atomToken?, hname, hnumber]
  cases Literal.read? s <;> rfl

/-- The numbers that trees may hold, told by the grammar of literals. An atom with a number is read
as a word exactly if the text of the number has the form of a literal and its digits denote that
word; it is at fault, with the text as it stands, exactly if the text has not the form or denotes a
number out of range. The decimal text of a word without a sign is read as the word. -/
theorem number_by_grammar {n : Node} {s : String} (hrule : n.rule = .atom)
    (hname : n.token? .name = none) (hnumber : n.token? .number = some s) :
    (∀ v : Int64, n.toExpr = .ok (.int v) ↔
      Literal.Spelling s.toList ∧ v.toInt = Text.valueOf (Literal.digitsOf s)) ∧
    (n.toExpr = .error (.invalidLiteral s) ↔
      ¬ (Literal.Spelling s.toList ∧
        Text.valueOf (Literal.digitsOf s) ≤ 9223372036854775807)) ∧
    ∀ v : Int64, 0 ≤ v → s = Text.decimal v.toInt → n.toExpr = .ok (.int v) := by
  have hread := toExpr_of_number hrule hname hnumber
  -- The fault is never mistaken for a word, so both readings are told by what the reader finds.
  have hok : ∀ v : Int64, n.toExpr = .ok (.int v) ↔ Literal.read? s = some v := by
    intro v
    rw [hread]
    cases Literal.read? s <;> simp
  have herror : n.toExpr = .error (.invalidLiteral s) ↔ Literal.read? s = none := by
    rw [hread]
    cases Literal.read? s <;> simp
  refine ⟨?_, ?_, ?_⟩
  · intro v
    rw [hok, Literal.read?_eq_some_iff]
    exact ⟨fun h => ⟨h.spelling, h.value⟩, fun h => ⟨h.1, h.2⟩⟩
  · rw [herror, Literal.read?_eq_none_iff, ← Literal.exists_denotes_iff, not_exists]
  · intro v hv hs
    rw [hok, hs]
    exact Literal.read?_decimal (Int64.not_lt.2 hv)

/-- The greatest word, spelled with an underscore and without, and the text of the number after it,
which has the form of a literal and is out of range. -/
theorem number_by_grammar_at_greatest :
    let spaced := Phrase.number "9_223372036854775807"
    let plain := Phrase.number "9223372036854775807"
    let beyond := Phrase.number "9223372036854775808"
    (spaced.rule = .atom ∧ spaced.token? .name = none ∧
      spaced.token? .number = some "9_223372036854775807") ∧
    spaced.toExpr = .ok (.int Int64.maxValue) ∧
    plain.toExpr = .ok (.int Int64.maxValue) ∧
    (Literal.Spelling "9223372036854775808".toList ∧
      beyond.toExpr = .error (.invalidLiteral "9223372036854775808")) := by
  intro spaced plain beyond
  have hspaced : Literal.Spelling "9_223372036854775807".toList :=
    Literal.spelling_iff.2 (by decide +kernel)
  have hbeyond : Literal.Spelling "9223372036854775808".toList :=
    Literal.spelling_iff.2 (by decide +kernel)
  refine ⟨⟨rfl, rfl, rfl⟩, ?_, ?_, hbeyond, ?_⟩
  · exact ((number_by_grammar rfl rfl rfl).1 Int64.maxValue).2 ⟨hspaced, by decide +kernel⟩
  · exact (number_by_grammar rfl rfl rfl).2.2 Int64.maxValue (by decide) (by decide +kernel)
  · exact (number_by_grammar rfl rfl rfl).2.1.2 fun h => absurd h.2 (by decide +kernel)

end ScopeScript.Node
