import ScopeScript.Json.Basic
import ScopeScript.Json.Lexeme
import ScopeScript.Text.Decimal

/-!
# The grammar of JSON

Which texts hold a JSON document, and which one, said without the reader. The productions are those
of the strict grammar: white space stands around values and keys, a comma between two elements and
nowhere else, and there is no bound on how deep values are nested. Besides the form of a text the
productions tell its meaning: the integer that a number is, the text of a string.

* `Number`: numbers, with their value if they are written as integers.
* `Characters`: what stands between quotation marks, as characters and escaped units.
* `Part.text?`: the text of a string, in which halves of surrogate pairs have to meet.
* `Value`, `Element`: documents, without and with white space around them.
-/

namespace ScopeScript.Json.Grammar

/-- White space, any amount of it. -/
def Blank (cs : List Char) : Prop :=
  ∀ c ∈ cs, isSpace c = true

/-- White space may be missing. -/
theorem blank_nil : Blank [] := by
  rintro c ⟨⟩

/-- Digits, at least one. -/
def Digits (cs : List Char) : Prop :=
  cs ≠ [] ∧ ∀ c ∈ cs, c.isDigit = true

/-! ### Numbers -/

/-- The integer part of a number: no zero leads further digits. -/
inductive Whole : List Char → Prop where
  /-- A zero. -/
  | zero : Whole ['0']
  /-- A digit other than zero leads any digits. -/
  | digits {c : Char} {rest : List Char} (hc : c.isDigit = true) (hne : c ≠ '0')
    (h : ∀ d ∈ rest, d.isDigit = true) : Whole (c :: rest)

/-- The fraction of a number. -/
inductive Fraction : List Char → Prop where
  /-- No fraction. -/
  | absent : Fraction []
  /-- A point and digits. -/
  | present {ds : List Char} (h : Digits ds) : Fraction ('.' :: ds)

/-- The exponent of a number. -/
inductive Exponent : List Char → Prop where
  /-- No exponent. -/
  | absent : Exponent []
  /-- A letter in either case, a sign or none, and digits. -/
  | present {mark : Char} {sign ds : List Char} (hmark : mark = 'e' ∨ mark = 'E')
    (hsign : sign = [] ∨ sign = ['+'] ∨ sign = ['-']) (h : Digits ds) :
    Exponent (mark :: (sign ++ ds))

/-- The sign of a number: only a negative one has it. -/
def sign (negative : Bool) : List Char :=
  if negative then ['-'] else []

/-- The integer that a number is, given its sign, its integer part and what stands behind it. With a
fraction or an exponent it is none, and neither is a negative zero. -/
def integerOf (negative : Bool) (whole tail : List Char) : Option Int :=
  if tail ≠ [] then none
  else if negative then
    if whole = ['0'] then none else some (-(Text.valueOf whole : Int))
  else some (Text.valueOf whole)

/-- A number, with the integer that it is. -/
inductive Number : List Char → Option Int → Prop where
  /-- A sign or none, an integer part, a fraction and an exponent. -/
  | mk (negative : Bool) {whole fraction exponent : List Char} (hw : Whole whole)
    (hf : Fraction fraction) (he : Exponent exponent) :
    Number (sign negative ++ whole ++ fraction ++ exponent)
      (integerOf negative whole (fraction ++ exponent))

/-! ### Strings -/

/-- A part of a string. -/
inductive Part where
  /-- A character that stands for itself, or that a letter escapes. -/
  | char (c : Char)
  /-- An escaped UTF-16 unit. -/
  | unit (u : Nat)
  deriving DecidableEq

/-- What stands between quotation marks, and the parts that it spells. -/
inductive Characters : List Char → List Part → Prop where
  /-- Nothing. -/
  | nil : Characters [] []
  /-- A character other than a quotation mark, a backslash and a control character. -/
  | plain {c : Char} {cs : List Char} {ps : List Part} (hquote : c ≠ '"') (hslash : c ≠ '\\')
    (hcontrol : 0x20 ≤ c.toNat) (h : Characters cs ps) : Characters (c :: cs) (.char c :: ps)
  /-- A character escaped by a letter. -/
  | letter {l c : Char} {cs : List Char} {ps : List Part} (hl : shortEscape? l = some c)
    (h : Characters cs ps) : Characters ('\\' :: l :: cs) (.char c :: ps)
  /-- A unit escaped by its four hexadecimal digits. -/
  | unit {a b c d : Char} {i j k l : Nat} {cs : List Char} {ps : List Part}
    (ha : hexValue? a = some i) (hb : hexValue? b = some j) (hc : hexValue? c = some k)
    (hd : hexValue? d = some l) (h : Characters cs ps) :
    Characters ('\\' :: 'u' :: a :: b :: c :: d :: cs)
      (.unit (16 * (16 * (16 * i + j) + k) + l) :: ps)

/-- Whether a UTF-16 unit is the first half of a surrogate pair. -/
def isHigh (u : Nat) : Bool :=
  0xD800 ≤ u && u < 0xDC00

/-- Whether a UTF-16 unit is the second half of a surrogate pair. -/
def isLow (u : Nat) : Bool :=
  0xDC00 ≤ u && u < 0xE000

/-- The character of a surrogate pair. -/
def pair (high low : Nat) : Char :=
  Char.ofNat (0x10000 + (high - 0xD800) * 0x400 + (low - 0xDC00))

/-- The characters that parts of a string stand for. Two units that are the halves of a surrogate
pair stand for one character together; a half that does not meet the other has no meaning. -/
def Part.chars? : List Part → Option (List Char)
  | [] => some []
  | .char c :: ps => (chars? ps).map (c :: ·)
  | .unit u :: ps =>
    if isHigh u then
      match ps with
      | .unit v :: qs => if isLow v then (chars? qs).map (pair u v :: ·) else none
      | _ => none
    else if isLow u then none
    else (chars? ps).map (Char.ofNat u :: ·)

/-- The text that parts of a string stand for, unless a half of a surrogate pair stands alone. -/
def Part.text? (ps : List Part) : Option String :=
  (chars? ps).map String.ofList

/-- The second half of a surrogate pair has no meaning by itself. -/
theorem Part.chars?_of_isLow {u : Nat} {ps : List Part} (hhigh : isHigh u = false)
    (hlow : isLow u = true) : chars? (.unit u :: ps) = none := by
  rw [chars?.eq_def]
  simp [hhigh, hlow]

/-- A unit that is no half of a surrogate pair stands for a character. -/
theorem Part.chars?_of_single {u : Nat} {ps : List Part} (hhigh : isHigh u = false)
    (hlow : isLow u = false) :
    chars? (.unit u :: ps) = (chars? ps).map (Char.ofNat u :: ·) := by
  rw [chars?.eq_def]
  simp [hhigh, hlow]

/-- Characters that need no escape spell themselves. -/
theorem Characters.of_plain {cs : List Char}
    (h : ∀ c ∈ cs, c ≠ '"' ∧ c ≠ '\\' ∧ 0x20 ≤ c.toNat) : Characters cs (cs.map .char) := by
  induction cs with
  | nil => exact .nil
  | cons c cs ih =>
    obtain ⟨⟨hquote, hslash, hcontrol⟩, hcs⟩ := List.forall_mem_cons.1 h
    exact .plain hquote hslash hcontrol (ih hcs)

/-- Characters stand for themselves. -/
theorem Part.text?_map_char (s : String) : text? (s.toList.map .char) = some s := by
  have hchars : ∀ cs : List Char, chars? (cs.map .char) = some cs := by
    intro cs
    induction cs with
    | nil => rfl
    | cons c cs ih => rw [List.map_cons, chars?, ih, Option.map_some]
  rw [text?, hchars, Option.map_some, String.ofList_toList]

/-! ### Documents -/

mutual

/-- A text without white space around it, and the document that it is. -/
inductive Value : List Char → Json → Prop where
  /-- The word `null`. -/
  | null : Value "null".toList .null
  /-- The word `true`. -/
  | true : Value "true".toList (.bool true)
  /-- The word `false`. -/
  | false : Value "false".toList (.bool false)
  /-- A number. -/
  | number {cs : List Char} {z : Option Int} (h : Number cs z) : Value cs (.number z)
  /-- A string. -/
  | string {cs : List Char} {ps : List Part} (h : Characters cs ps) :
    Value ('"' :: (cs ++ ['"'])) (.string (Part.text? ps))
  /-- An array without elements. -/
  | emptyArray {cs : List Char} (h : Blank cs) : Value ('[' :: (cs ++ [']'])) (.array [])
  /-- An array. -/
  | array {cs : List Char} {vs : List Json} (h : Elements cs vs) :
    Value ('[' :: (cs ++ [']'])) (.array vs)
  /-- An object without members. -/
  | emptyObject {cs : List Char} (h : Blank cs) : Value ('{' :: (cs ++ ['}'])) (.object [])
  /-- An object. -/
  | object {cs : List Char} {ms : List (Option String × Json)} (h : Members cs ms) :
    Value ('{' :: (cs ++ ['}'])) (.object ms)

/-- A document with white space around it. -/
inductive Element : List Char → Json → Prop where
  /-- White space, a document, and white space. -/
  | mk {before cs after : List Char} {v : Json} (hbefore : Blank before) (h : Value cs v)
    (hafter : Blank after) : Element (before ++ cs ++ after) v

/-- Documents with a comma between each two, at least one. -/
inductive Elements : List Char → List Json → Prop where
  /-- The last element. -/
  | last {cs : List Char} {v : Json} (h : Element cs v) : Elements cs [v]
  /-- An element before further ones. -/
  | cons {cs ds : List Char} {v : Json} {vs : List Json} (h : Element cs v) (hs : Elements ds vs) :
    Elements (cs ++ ',' :: ds) (v :: vs)

/-- A key with white space around it, and its value. -/
inductive Member : List Char → Option String × Json → Prop where
  /-- A string, a colon, and an element. -/
  | mk {before key after cs : List Char} {ps : List Part} {v : Json} (hbefore : Blank before)
    (hkey : Characters key ps) (hafter : Blank after) (h : Element cs v) :
    Member (before ++ '"' :: (key ++ '"' :: (after ++ ':' :: cs))) (Part.text? ps, v)

/-- Members with a comma between each two, at least one. -/
inductive Members : List Char → List (Option String × Json) → Prop where
  /-- The last member. -/
  | last {cs : List Char} {m : Option String × Json} (h : Member cs m) : Members cs [m]
  /-- A member before further ones. -/
  | cons {cs ds : List Char} {m : Option String × Json} {ms : List (Option String × Json)}
    (h : Member cs m) (hs : Members ds ms) : Members (cs ++ ',' :: ds) (m :: ms)

end

/-- A value needs no white space around it. -/
theorem Value.element {cs : List Char} {v : Json} (h : Value cs v) : Element cs v := by
  simpa using Element.mk blank_nil h blank_nil

/-- A key that needs no escape stands for itself. -/
theorem Member.of_plain (key : String) {cs : List Char} {v : Json}
    (hkey : ∀ c ∈ key.toList, c ≠ '"' ∧ c ≠ '\\' ∧ 0x20 ≤ c.toNat) (h : Element cs v) :
    Member ('"' :: (key.toList ++ '"' :: ':' :: cs)) (some key, v) := by
  have hmember := Member.mk blank_nil (.of_plain hkey) blank_nil h
  rwa [Part.text?_map_char] at hmember

end ScopeScript.Json.Grammar
