/-!
# Lexemes of JSON

The lexical level of JSON as a machine that reads one character at a time. A character may end a
lexeme, be one, or do both: what ends a number is read again after it. White space is a space, a
tab, a line feed or a carriage return.

* `step_text_of_plain`: inside a string, a character that needs no escape stands for itself.
-/

namespace ScopeScript.Json

/-- A lexeme of JSON. -/
inductive Lexeme where
  | openBracket | closeBracket | openBrace | closeBrace | comma | colon
  | null
  | bool (value : Bool)
  | number (integer : Option Int)
  | string (text : Option String)
  deriving DecidableEq, Repr

/-! ### Strings -/

/-- The text of a string literal read so far. -/
structure Draft where
  /-- The characters, the last one first. -/
  chars : List Char := []
  /-- The first half of a surrogate pair, if an escape for it was read last. -/
  high : Option Nat := none
  /-- Whether every surrogate so far was half of a pair. -/
  paired : Bool := true
  deriving DecidableEq, Repr

namespace Draft

/-- The draft continued by a character. -/
def pushChar (d : Draft) (c : Char) : Draft :=
  ⟨c :: d.chars, none, d.paired && d.high.isNone⟩

/-- The draft continued by an escaped UTF-16 unit. Two halves of a surrogate pair make one
character. -/
def pushUnit (d : Draft) (unit : Nat) : Draft :=
  -- The first half of a pair waits for the second; one that still waits stood alone.
  if 0xD800 ≤ unit ∧ unit < 0xDC00 then ⟨d.chars, some unit, d.paired && d.high.isNone⟩
  else if 0xDC00 ≤ unit ∧ unit < 0xE000 then
    match d.high with
    | some high =>
      ⟨Char.ofNat (0x10000 + (high - 0xD800) * 0x400 + (unit - 0xDC00)) :: d.chars, none, d.paired⟩
    | none => ⟨d.chars, none, false⟩
  else d.pushChar (Char.ofNat unit)

/-- The text of the finished literal, if no surrogate stood alone. -/
def text? (d : Draft) : Option String :=
  if d.paired && d.high.isNone then some (String.ofList d.chars.reverse) else none

end Draft

/-! ### Numbers -/

/-- How far a number has been read. -/
inductive NumberPart where
  /-- A minus sign. -/
  | minus
  /-- A single zero, which no digit follows. -/
  | zero
  /-- The digits of the integer part. -/
  | whole
  /-- The point. -/
  | point
  /-- The digits after the point. -/
  | fraction
  /-- The letter of the exponent. -/
  | mark
  /-- The sign of the exponent. -/
  | sign
  /-- The digits of the exponent. -/
  | exponent
  deriving DecidableEq, Repr

namespace NumberPart

/-- Whether a number may end here. -/
def mayEnd : NumberPart → Bool
  | zero | whole | fraction | exponent => true
  | minus | point | mark | sign => false

/-- The part of a number that a character continues, if it continues the number. -/
def next? (p : NumberPart) (c : Char) : Option NumberPart :=
  let digit := c.isDigit
  let isMark := c == 'e' || c == 'E'
  match p with
  | minus => if c == '0' then some zero else if digit then some whole else none
  | zero => if c == '.' then some point else if isMark then some mark else none
  | whole =>
    if digit then some whole else if c == '.' then some point else if isMark then some mark
    else none
  | point => if digit then some fraction else none
  | fraction => if digit then some fraction else if isMark then some mark else none
  | mark =>
    if digit then some exponent else if c == '+' || c == '-' then some sign else none
  | sign => if digit then some exponent else none
  | exponent => if digit then some exponent else none

end NumberPart

/-- The integer that a finished number is, given the value of its integer part. -/
def integer? (part : NumberPart) (negative : Bool) (value : Nat) : Option Int :=
  match part with
  | .zero => if negative then none else some 0
  | .whole => some (if negative then -(value : Int) else value)
  | _ => none

/-! ### The machine -/

/-- What the machine is reading. -/
inductive Mode where
  /-- Nothing: the last lexeme is complete. -/
  | between
  /-- A literal that is a word, with the letters that are still to come. -/
  | word (rest : List Char) (lexeme : Lexeme)
  /-- A number, with the value of the digits of its integer part. -/
  | number (part : NumberPart) (negative : Bool) (value : Nat)
  /-- A string. -/
  | text (draft : Draft)
  /-- A string, after the backslash of an escape. -/
  | escape (draft : Draft)
  /-- A string, in the hexadecimal digits of an escape: how many are to come, and the value of
  those read. -/
  | hex (draft : Draft) (remaining value : Nat)
  deriving DecidableEq, Repr

/-- The value of a decimal digit. -/
def digitValue (c : Char) : Nat :=
  c.toNat - '0'.toNat

/-- The value of a hexadecimal digit, in either case. -/
def hexValue? (c : Char) : Option Nat :=
  if c.isDigit then some (digitValue c)
  else if 'a' ≤ c ∧ c ≤ 'f' then some (c.toNat - 'a'.toNat + 10)
  else if 'A' ≤ c ∧ c ≤ 'F' then some (c.toNat - 'A'.toNat + 10)
  else none

/-- The character that an escape of one letter stands for. -/
def shortEscape? : Char → Option Char
  | '"' => some '"'
  | '\\' => some '\\'
  | '/' => some '/'
  | 'b' => some '\x08'
  | 'f' => some '\x0c'
  | 'n' => some '\n'
  | 'r' => some '\r'
  | 't' => some '\t'
  | _ => none

/-- Whether a character is white space between lexemes. -/
def isSpace (c : Char) : Bool :=
  c == ' ' || c == '\t' || c == '\n' || c == '\r'

/-- Reads a character between lexemes. -/
def start (c : Char) : Option (List Lexeme × Mode) :=
  match c with
  | '[' => some ([.openBracket], .between)
  | ']' => some ([.closeBracket], .between)
  | '{' => some ([.openBrace], .between)
  | '}' => some ([.closeBrace], .between)
  | ',' => some ([.comma], .between)
  | ':' => some ([.colon], .between)
  | '"' => some ([], .text {})
  | 'n' => some ([], .word ['u', 'l', 'l'] .null)
  | 't' => some ([], .word ['r', 'u', 'e'] (.bool true))
  | 'f' => some ([], .word ['a', 'l', 's', 'e'] (.bool false))
  | '-' => some ([], .number .minus true 0)
  | '0' => some ([], .number .zero false 0)
  | c =>
    if isSpace c then some ([], .between)
    else if c.isDigit then some ([], .number .whole false (digitValue c))
    else none

/-- Reads one character: the lexemes that it completes, and what is being read after it. -/
def Mode.step (mode : Mode) (c : Char) : Option (List Lexeme × Mode) :=
  match mode with
  | between => start c
  | word [] _ => none
  | word (x :: rest) lexeme =>
    if c = x then
      if rest.isEmpty then some ([lexeme], between) else some ([], word rest lexeme)
    else none
  | number part negative value =>
    match part.next? c with
    | some next =>
      some ([], number next negative (if next = .whole then 10 * value + digitValue c else value))
    | none =>
      -- The character ends the number and is read again.
      if part.mayEnd then
        (start c).map fun r => (.number (integer? part negative value) :: r.1, r.2)
      else none
  | text draft =>
    if c = '"' then some ([.string draft.text?], between)
    else if c = '\\' then some ([], escape draft)
    else if c.toNat < 0x20 then none
    else some ([], text (draft.pushChar c))
  | escape draft =>
    if c = 'u' then some ([], hex draft 3 0)
    else (shortEscape? c).map fun e => ([], text (draft.pushChar e))
  | hex draft remaining value =>
    (hexValue? c).map fun digit =>
      let value := 16 * value + digit
      match remaining with
      | 0 => ([], text (draft.pushUnit value))
      | remaining + 1 => ([], hex draft remaining value)

/-- The lexemes that the end of the text completes. -/
def Mode.finish : Mode → Option (List Lexeme)
  | between => some []
  | number part negative value =>
    if part.mayEnd then some [.number (integer? part negative value)] else none
  | _ => none

/-- Inside a string, a character that needs no escape stands for itself. -/
theorem step_text_of_plain (draft : Draft) {c : Char} (hq : c ≠ '"') (hb : c ≠ '\\')
    (hc : 0x20 ≤ c.toNat) : (Mode.text draft).step c = some ([], .text (draft.pushChar c)) := by
  simp [Mode.step, hq, hb, Nat.not_lt.2 hc]

end ScopeScript.Json
