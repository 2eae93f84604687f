import ScopeScript.Json.Reader
import ScopeScript.Proofs.Json.Grammar

/-!
# Lexemes in the grammar of JSON

The lexical level of the reader against the grammar. White space is passed over; a number is read up
to its end, which is before the first character that continues none; a string is read up to its
closing quotation mark. The lexeme is then fed to the open containers.

* `ReaderState.outcome`: what reading the rest of a text comes to.
* `Stops`: what may stand behind a number.

Main statements:

* `outcome_number`: a number is read as the integer that the grammar tells.
* `outcome_string`: a string is read as the text that its parts stand for.
-/

namespace ScopeScript.Json

open Grammar

/-- What reading the rest of a text comes to: the document, if the text completes one. -/
def ReaderState.outcome (s : ReaderState) (cs : List Char) : Option Json :=
  (s.readAll cs).bind finish

namespace Grammar

variable {p : Pending} {mode mode' : Mode} {c : Char} {cs rest : List Char}

/-! ### Steps -/

/-- A text is read one character after the other. -/
theorem outcome_cons (s : ReaderState) (c : Char) (cs : List Char) :
    s.outcome (c :: cs) = (s.step c).bind fun t => t.outcome cs := by
  simp [ReaderState.outcome, ReaderState.readAll, Option.bind_assoc]

/-- A character that completes no lexeme changes what is being read, and nothing else. -/
theorem outcome_of_silent (h : mode.step c = some ([], mode')) :
    ReaderState.outcome ⟨mode, p⟩ (c :: cs) = ReaderState.outcome ⟨mode', p⟩ cs := by
  rw [outcome_cons, ReaderState.step, h]
  rfl

/-- A character that completes a lexeme has it fed to the open containers. -/
theorem outcome_of_lexeme {l : Lexeme} (h : mode.step c = some ([l], mode')) :
    ReaderState.outcome ⟨mode, p⟩ (c :: cs) =
      (p.feed l).bind fun q => ReaderState.outcome ⟨mode', q⟩ cs := by
  rw [outcome_cons, ReaderState.step, h]
  cases hfeed : p.feed l <;> simp [hfeed]

/-- White space between lexemes is passed over. -/
theorem outcome_blank (h : Blank cs) :
    ReaderState.outcome ⟨.between, p⟩ (cs ++ rest) = ReaderState.outcome ⟨.between, p⟩ rest := by
  induction cs with
  | nil => rfl
  | cons c cs ih =>
    obtain ⟨hc, hcs⟩ := List.forall_mem_cons.1 h
    have hstep : Mode.between.step c = some ([], .between) := by
      simp only [isSpace, Bool.or_eq_true, beq_iff_eq] at hc
      rcases hc with ((rfl | rfl) | rfl) | rfl <;> rfl
    rw [List.cons_append, outcome_of_silent hstep, ih hcs]

/-! ### Numbers -/

/-- What may stand behind a number: nothing that continues one. -/
def Stops (rest : List Char) : Prop :=
  ∀ c ∈ rest.head?, ∀ part : NumberPart, part.next? c = none

/-- Nothing may stand behind a number. -/
theorem stops_nil : Stops [] := by
  rintro c ⟨⟩

/-- White space may stand behind a number, and so may whatever stands behind the white space. -/
theorem stops_blank_append (h : Blank cs) (hrest : Stops rest) : Stops (cs ++ rest) := by
  cases cs with
  | nil => exact hrest
  | cons c cs =>
    rintro _ ⟨⟩ part
    have hc := h c List.mem_cons_self
    simp only [isSpace, Bool.or_eq_true, beq_iff_eq] at hc
    rcases hc with ((rfl | rfl) | rfl) | rfl <;> cases part <;> rfl

/-- A comma or a closing bracket may stand behind a number. -/
theorem stops_cons (h : c = ',' ∨ c = ']' ∨ c = '}') : Stops (c :: rest) := by
  rintro _ ⟨⟩ part
  rcases h with rfl | rfl | rfl <;> cases part <;> rfl

section Number

variable {part : NumberPart} {negative : Bool} {value : Nat}

/-- A number that may end does so before what may stand behind it. -/
theorem outcome_end (hend : part.mayEnd = true) (hrest : Stops rest) :
    ReaderState.outcome ⟨.number part negative value, p⟩ rest =
      (p.feed (.number (integer? part negative value))).bind fun q =>
        ReaderState.outcome ⟨.between, q⟩ rest := by
  cases rest with
  | nil =>
    show ReaderState.finish _ = _
    rw [ReaderState.finish, Mode.finish, if_pos hend]
    cases hfeed : p.feed (.number (integer? part negative value)) <;> simp [hfeed]
    rfl
  | cons c rest =>
    have hnext : part.next? c = none := hrest c rfl part
    have hstep : (Mode.number part negative value).step c =
        (start c).map fun r => (.number (integer? part negative value) :: r.1, r.2) := by
      rw [Mode.step, hnext]
      exact if_pos hend
    -- The character is read again after the number, unless it begins no lexeme.
    rw [outcome_cons, ReaderState.step, hstep]
    cases hfeed : p.feed (.number (integer? part negative value)) <;>
      cases hstart : start c <;> simp [hfeed, hstart, outcome_cons, ReaderState.step, Mode.step]

/-- Digits that leave the part of a number as it is are read up to their end. Those of the integer
part count. -/
theorem outcome_digits {ds : List Char}
    (hpart : ∀ c : Char, c.isDigit = true → part.next? c = some part)
    (hds : ∀ c ∈ ds, c.isDigit = true) :
    ReaderState.outcome ⟨.number part negative value, p⟩ (ds ++ rest) =
      ReaderState.outcome ⟨.number part negative
        (if part = .whole then Nat.ofDigitChars 10 ds value else value), p⟩ rest := by
  induction ds generalizing value with
  | nil => simp [Nat.ofDigitChars]
  | cons d ds ih =>
    obtain ⟨hd, hds⟩ := List.forall_mem_cons.1 hds
    have hstep : (Mode.number part negative value).step d =
        some ([], .number part negative
          (if part = .whole then 10 * value + digitValue d else value)) := by
      rw [Mode.step, hpart d hd]
    rw [List.cons_append, outcome_of_silent hstep, ih hds]
    split <;> rfl

/-- The part that the integer part of a number leaves. -/
def wholePart (whole : List Char) : NumberPart :=
  if whole = ['0'] then .zero else .whole

/-- A number other than a zero does not begin with a zero. -/
theorem cons_ne_zero {rest : List Char} (h : c ≠ '0') : c :: rest ≠ ['0'] :=
  fun e => h (List.cons.inj e).1

/-- The digit that leads an integer part is read where nothing has been read yet. -/
theorem step_between_of_isDigit (hc : c.isDigit = true) (hne : c ≠ '0') :
    Mode.between.step c = some ([], .number .whole false (digitValue c)) := by
  have hother : ∀ d : Char, d.isDigit = false → c ≠ d := by
    rintro d hd rfl
    rw [hc] at hd
    cases hd
  have hspace : isSpace c = false := by
    simp [isSpace, hother ' ' rfl, hother '\t' rfl, hother '\n' rfl, hother '\r' rfl]
  rw [Mode.step]
  unfold start
  split <;> simp_all

/-- The digits behind the one that leads an integer part are read up to their end. -/
theorem outcome_leading {ds : List Char} (hc : c ≠ '0') (hds : ∀ d ∈ ds, d.isDigit = true) :
    ReaderState.outcome ⟨.number .whole negative (digitValue c), p⟩ (ds ++ rest) =
      ReaderState.outcome
        ⟨.number (wholePart (c :: ds)) negative (Text.valueOf (c :: ds)), p⟩ rest := by
  have hwhole : ∀ d : Char, d.isDigit = true → NumberPart.whole.next? d = some .whole :=
    fun d hd => if_pos hd
  have hvalue : Text.valueOf (c :: ds) = Nat.ofDigitChars 10 ds (digitValue c) := by
    simp [Text.valueOf, Nat.ofDigitChars, digitValue]
  rw [outcome_digits hwhole hds, if_pos rfl, wholePart, if_neg (cons_ne_zero hc), hvalue]

/-- The sign and the integer part of a number are read up to their end. -/
theorem outcome_whole {ws : List Char} (hw : Whole ws) :
    ReaderState.outcome ⟨.between, p⟩ (sign negative ++ ws ++ rest) =
      ReaderState.outcome ⟨.number (wholePart ws) negative (Text.valueOf ws), p⟩ rest := by
  cases negative with
  | false =>
    cases hw with
    | zero => exact outcome_of_silent rfl
    | digits hc hne hds =>
      exact (outcome_of_silent (step_between_of_isDigit hc hne)).trans (outcome_leading hne hds)
  | true =>
    have hminus : ∀ cs, ReaderState.outcome ⟨.between, p⟩ ('-' :: cs) =
        ReaderState.outcome ⟨.number .minus true 0, p⟩ cs := fun _ => outcome_of_silent rfl
    refine (hminus _).trans ?_
    cases hw with
    | zero => exact outcome_of_silent rfl
    | @digits c ds hc hne hds =>
      have hstep : (Mode.number .minus true 0).step c =
          some ([], .number .whole true (digitValue c)) := by
        simp [Mode.step, NumberPart.next?, hc, hne]
      exact (outcome_of_silent hstep).trans (outcome_leading hne hds)

/-- A fraction is read up to its end. -/
theorem outcome_fraction {fs : List Char} (hf : Fraction fs)
    (hpoint : part.next? '.' = some .point) :
    ReaderState.outcome ⟨.number part negative value, p⟩ (fs ++ rest) =
      ReaderState.outcome
        ⟨.number (if fs = [] then part else .fraction) negative value, p⟩ rest := by
  cases hf with
  | absent => rfl
  | @present ds hds =>
    obtain ⟨d, ds, rfl⟩ := List.exists_cons_of_ne_nil hds.1
    obtain ⟨hd, hds⟩ := List.forall_mem_cons.1 hds.2
    have hdot : (Mode.number part negative value).step '.' =
        some ([], .number .point negative value) := by
      simp [Mode.step, hpoint]
    have hfirst : (Mode.number .point negative value).step d =
        some ([], .number .fraction negative value) := by
      simp [Mode.step, NumberPart.next?, hd]
    have hfraction : ∀ c : Char, c.isDigit = true → NumberPart.fraction.next? c = some .fraction :=
      fun c hc => if_pos hc
    rw [if_neg (List.cons_ne_nil _ _), List.cons_append, outcome_of_silent hdot, List.cons_append,
      outcome_of_silent hfirst, outcome_digits hfraction hds]
    rfl

/-- An exponent is read up to its end. -/
theorem outcome_exponent {es : List Char} (he : Exponent es)
    (hmark : ∀ c, c = 'e' ∨ c = 'E' → part.next? c = some .mark) :
    ReaderState.outcome ⟨.number part negative value, p⟩ (es ++ rest) =
      ReaderState.outcome
        ⟨.number (if es = [] then part else .exponent) negative value, p⟩ rest := by
  cases he with
  | absent => rfl
  | @present mark sign ds hletter hsign hds =>
    obtain ⟨d, ds, rfl⟩ := List.exists_cons_of_ne_nil hds.1
    obtain ⟨hd, hds⟩ := List.forall_mem_cons.1 hds.2
    have hstart : (Mode.number part negative value).step mark =
        some ([], .number .mark negative value) := by
      simp [Mode.step, hmark mark hletter]
    have hsigned : ∀ c, c = '+' ∨ c = '-' → (Mode.number .mark negative value).step c =
        some ([], .number .sign negative value) := by
      rintro c (rfl | rfl) <;> rfl
    have hdigit : (Mode.number .mark negative value).step d =
          some ([], .number .exponent negative value) ∧
        (Mode.number .sign negative value).step d =
          some ([], .number .exponent negative value) := by
      simp [Mode.step, NumberPart.next?, hd]
    -- With a sign or without one, the first digit is read as one of the exponent.
    have hfirst :
        ReaderState.outcome ⟨.number .mark negative value, p⟩ (sign ++ d :: (ds ++ rest)) =
          ReaderState.outcome ⟨.number .exponent negative value, p⟩ (ds ++ rest) := by
      rcases hsign with rfl | rfl | rfl
      · exact outcome_of_silent hdigit.1
      · exact (outcome_of_silent (hsigned '+' (.inl rfl))).trans (outcome_of_silent hdigit.2)
      · exact (outcome_of_silent (hsigned '-' (.inr rfl))).trans (outcome_of_silent hdigit.2)
    have hexponent : ∀ c : Char, c.isDigit = true → NumberPart.exponent.next? c = some .exponent :=
      fun c hc => if_pos hc
    rw [if_neg (List.cons_ne_nil _ _), List.cons_append, outcome_of_silent hstart,
      List.append_assoc, List.cons_append, hfirst, outcome_digits hexponent hds]
    rfl

/-- The part of a number that its fraction and its exponent leave. -/
def finalPart (ws fs es : List Char) : NumberPart :=
  if es = [] then if fs = [] then wholePart ws else .fraction else .exponent

/-- A number may end behind its integer part, its fraction or its exponent. -/
theorem mayEnd_finalPart (ws fs es : List Char) : (finalPart ws fs es).mayEnd = true := by
  unfold finalPart wholePart
  repeat' split
  all_goals rfl

/-- The number that has been read is the integer that the grammar tells. -/
theorem integer?_finalPart (ws fs es : List Char) :
    integer? (finalPart ws fs es) negative (Text.valueOf ws) =
      integerOf negative ws (fs ++ es) := by
  by_cases htail : fs ++ es = []
  · obtain ⟨rfl, rfl⟩ := List.append_eq_nil_iff.1 htail
    by_cases hzero : ws = ['0']
    · subst hzero
      cases negative <;> rfl
    · cases negative <;> simp [finalPart, wholePart, integer?, integerOf, hzero]
  · have hpart : finalPart ws fs es = .fraction ∨ finalPart ws fs es = .exponent := by
      unfold finalPart
      split
      · next hes =>
        have hfs : fs ≠ [] := by
          rintro rfl
          exact htail hes
        exact .inl (if_neg hfs)
      · exact .inr rfl
    rw [integerOf, if_pos htail]
    rcases hpart with h | h <;> rw [h] <;> rfl

/-- A number is read up to its end. -/
theorem outcome_number {z : Option Int} (h : Number cs z) (hrest : Stops rest) :
    ReaderState.outcome ⟨.between, p⟩ (cs ++ rest) =
      (p.feed (.number z)).bind fun q => ReaderState.outcome ⟨.between, q⟩ rest := by
  obtain ⟨negative, hw, hf, he⟩ := h
  rename_i ws fs es
  have hpoint : (wholePart ws).next? '.' = some .point := by
    unfold wholePart
    split <;> rfl
  have hmark : ∀ c, c = 'e' ∨ c = 'E' →
      (if fs = [] then wholePart ws else NumberPart.fraction).next? c = some .mark := by
    unfold wholePart
    rintro c (rfl | rfl) <;> repeat' split
    all_goals rfl
  rw [List.append_assoc, List.append_assoc, outcome_whole hw, outcome_fraction hf hpoint,
    outcome_exponent he hmark, ← integer?_finalPart]
  exact outcome_end (mayEnd_finalPart ws fs es) hrest

end Number

/-! ### Strings -/

/-- The draft of a string continued by a part of it. -/
def push (d : Draft) : Part → Draft
  | .char c => d.pushChar c
  | .unit u => d.pushUnit u

/-- The characters of a string are read up to the quotation mark that ends it. -/
theorem outcome_characters {ps : List Part} (h : Characters cs ps) (d : Draft) :
    ReaderState.outcome ⟨.text d, p⟩ (cs ++ '"' :: rest) =
      (p.feed (.string (ps.foldl push d).text?)).bind fun q =>
        ReaderState.outcome ⟨.between, q⟩ rest := by
  induction h generalizing d with
  | nil => exact outcome_of_lexeme rfl
  | plain hquote hslash hcontrol _ ih =>
    exact (outcome_of_silent (step_text_of_plain d hquote hslash hcontrol)).trans (ih _)
  | @letter l c cs ps hl _ ih =>
    have hescape : (Mode.text d).step '\\' = some ([], .escape d) := rfl
    have hne : l ≠ 'u' := by
      rintro rfl
      cases hl
    have hletter : (Mode.escape d).step l = some ([], .text (d.pushChar c)) := by
      rw [Mode.step, if_neg hne, hl]
      rfl
    exact (outcome_of_silent hescape).trans ((outcome_of_silent hletter).trans (ih _))
  | @unit a b c e i j k l cs ps ha hb hc he _ ih =>
    have hescape : (Mode.text d).step '\\' = some ([], .escape d) := rfl
    have hunit : (Mode.escape d).step 'u' = some ([], .hex d 3 0) := rfl
    have hdigit : ∀ {c : Char} {n : Nat} (remaining value : Nat), hexValue? c = some n →
        (Mode.hex d (remaining + 1) value).step c =
          some ([], .hex d remaining (16 * value + n)) := by
      intro c n remaining value hc
      rw [Mode.step, hc]
      rfl
    have hfirst : (Mode.hex d 3 0).step a = some ([], .hex d 2 i) := by
      rw [hdigit 2 0 ha, Nat.mul_zero, Nat.zero_add]
    have hlast : (Mode.hex d 0 (16 * (16 * i + j) + k)).step e =
        some ([], .text (d.pushUnit (16 * (16 * (16 * i + j) + k) + l))) := by
      rw [Mode.step, he]
      rfl
    simp only [List.cons_append]
    rw [outcome_of_silent hescape, outcome_of_silent hunit, outcome_of_silent hfirst,
      outcome_of_silent (hdigit 1 i hb), outcome_of_silent (hdigit 0 _ hc),
      outcome_of_silent hlast]
    exact ih _

/-- The first half of a surrogate pair waits in the draft for the second. -/
theorem pushUnit_of_isHigh {u : Nat} (d : Draft) (h : isHigh u = true) :
    d.pushUnit u = ⟨d.chars, some u, d.paired && d.high.isNone⟩ := by
  exact if_pos (by simpa [isHigh] using h)

/-- The second half of a surrogate pair makes a character with the half that waits, and stands alone
if none does. -/
theorem pushUnit_of_isLow {u : Nat} (d : Draft) (h : isLow u = true) :
    d.pushUnit u =
      match d.high with
      | some high => ⟨pair high u :: d.chars, none, d.paired⟩
      | none => ⟨d.chars, none, false⟩ := by
  simp only [isLow, Bool.and_eq_true, decide_eq_true_eq] at h
  rw [Draft.pushUnit, if_neg (by omega), if_pos h]
  rfl

/-- A unit that is no half of a surrogate pair is a character. -/
theorem pushUnit_of_single {u : Nat} (d : Draft) (hhigh : isHigh u = false)
    (hlow : isLow u = false) : d.pushUnit u = d.pushChar (Char.ofNat u) := by
  rw [Draft.pushUnit, if_neg (by simpa [isHigh] using hhigh), if_neg (by simpa [isLow] using hlow)]

/-- No unit is both halves of a surrogate pair. -/
theorem isLow_eq_false_of_isHigh {u : Nat} (h : isHigh u = true) : isLow u = false := by
  simp only [isHigh, isLow, Bool.and_eq_true, Bool.and_eq_false_iff, decide_eq_true_eq,
    decide_eq_false_iff_not] at h ⊢
  omega

/-- The parts of a string that a draft has not turned into characters yet: half of a pair that
waits for the other half. -/
def waiting (d : Draft) : List Part :=
  d.high.toList.map .unit

/-- A draft with the parts of a string behind it is what the parts stand for, those that wait in the
draft included. -/
theorem text?_foldl_push {ps : List Part} {d : Draft} (hhigh : ∀ u ∈ d.high, isHigh u = true) :
    (ps.foldl push d).text? =
      if d.paired then
        (Part.chars? (waiting d ++ ps)).map fun cs => String.ofList (d.chars.reverse ++ cs)
      else none := by
  induction ps generalizing d with
  | nil =>
    obtain ⟨chars, high, paired⟩ := d
    cases high with
    | none => cases paired <;> simp [Draft.text?, waiting, Part.chars?]
    | some u =>
      have hu : isHigh u = true := hhigh u rfl
      cases paired <;> simp [Draft.text?, waiting, Part.chars?, hu]
  | cons part ps ih =>
    have hnone : ∀ u ∈ (none : Option Nat), isHigh u = true := fun _ h => by cases h
    -- A character closes the draft to the half that waits in it.
    have hchar : ∀ c, (ps.foldl push (d.pushChar c)).text? =
        if d.paired && d.high.isNone then
          (Part.chars? ps).map fun cs => String.ofList (d.chars.reverse ++ c :: cs)
        else none := by
      intro c
      rw [ih (d := d.pushChar c) hnone]
      simp [Draft.pushChar, waiting]
    rw [List.foldl_cons]
    cases part with
    | char c =>
      rw [push, hchar]
      cases hd : d.high with
      | none => cases d.paired <;> simp [waiting, hd, Part.chars?, Function.comp_def]
      | some u => simp [waiting, hd, Part.chars?, hhigh u hd]
    | unit v =>
      rw [push]
      by_cases hv : isHigh v = true
      · have hwait : ∀ u ∈ (some v : Option Nat), isHigh u = true := by
          rintro u ⟨⟩
          exact hv
        rw [pushUnit_of_isHigh d hv, ih hwait]
        cases hd : d.high with
        | none => simp [waiting, hd]
        | some u =>
          simp [waiting, hd, Part.chars?, hhigh u hd, isLow_eq_false_of_isHigh hv]
      · have hv : isHigh v = false := Bool.eq_false_iff.2 hv
        by_cases hlow : isLow v = true
        · rw [pushUnit_of_isLow d hlow]
          cases hd : d.high with
          | none => simp [ih, waiting, hd, Part.chars?_of_isLow hv hlow]
          | some u =>
            simp [ih, waiting, hd, Part.chars?, hhigh u hd, hlow, Function.comp_def]
        · have hlow : isLow v = false := Bool.eq_false_iff.2 hlow
          rw [pushUnit_of_single d hv hlow, hchar]
          cases hd : d.high with
          | none => simp [waiting, hd, Part.chars?_of_single hv hlow, Function.comp_def]
          | some u => simp [waiting, hd, Part.chars?, hhigh u hd, hlow]

/-- A string is read up to its end, as the text that its parts stand for. -/
theorem outcome_string {ps : List Part} (h : Characters cs ps) :
    ReaderState.outcome ⟨.between, p⟩ ('"' :: (cs ++ '"' :: rest)) =
      (p.feed (.string (Part.text? ps))).bind fun q => ReaderState.outcome ⟨.between, q⟩ rest := by
  have hopen : Mode.between.step '"' = some ([], .text {}) := rfl
  have htext : (ps.foldl push {}).text? = Part.text? ps :=
    text?_foldl_push (d := {}) fun _ hu => by cases hu
  rw [outcome_of_silent hopen, outcome_characters h, htext]

end Grammar

end ScopeScript.Json
