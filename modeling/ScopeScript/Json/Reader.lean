import ScopeScript.Json.Basic
import ScopeScript.Json.Lexeme

/-!
# Reading JSON

A text is one JSON document with white space around it. The reader takes the text character by
character: the lexical machine turns characters into lexemes, and a stack of open containers turns
lexemes into documents. It accepts the strict grammar, nested to any depth: no comma after the last
element, no comment, no mark of byte order, nothing after the document.
-/

namespace ScopeScript.Json

/-- A key with its text, unless a surrogate is escaped alone. -/
abbrev Key := Option String

/-- A container that has been opened and not yet closed, with what it holds so far, the last
element first. -/
inductive Container where
  | array (done : List Json)
  /-- An object, with the key of the member whose value is being read. -/
  | object (done : List (Key × Json)) (key : Key)

/-- What the grammar allows next. -/
inductive Expect where
  /-- A value. -/
  | value
  /-- A value, or the end of an array without elements. -/
  | valueOrEnd
  /-- A key after the members so far; directly after the opening brace, the end as well. -/
  | key (done : List (Key × Json)) (first : Bool)
  /-- The colon after a key. -/
  | colon (done : List (Key × Json)) (key : Key)
  /-- What follows a complete value. -/
  | after (value : Json)

/-- Documents being read: the open containers, the innermost first, and what may come next. -/
structure Pending where
  /-- The open containers. -/
  stack : List Container := []
  /-- What may come next. -/
  expect : Expect := .value

namespace Pending

/-- Reads the first lexeme of a value. -/
def value (stack : List Container) : Lexeme → Option Pending
  | .null => some ⟨stack, .after .null⟩
  | .bool b => some ⟨stack, .after (.bool b)⟩
  | .number z => some ⟨stack, .after (.number z)⟩
  | .string s => some ⟨stack, .after (.string s)⟩
  | .openBracket => some ⟨.array [] :: stack, .valueOrEnd⟩
  | .openBrace => some ⟨stack, .key [] true⟩
  | .closeBracket | .closeBrace | .comma | .colon => none

/-- Reads the lexeme after a complete value. -/
def after (v : Json) : List Container → Lexeme → Option Pending
  | .array done :: stack, .comma => some ⟨.array (v :: done) :: stack, .value⟩
  | .array done :: stack, .closeBracket => some ⟨stack, .after (.array (v :: done).reverse)⟩
  | .object done key :: stack, .comma => some ⟨stack, .key ((key, v) :: done) false⟩
  | .object done key :: stack, .closeBrace =>
    some ⟨stack, .after (.object ((key, v) :: done).reverse)⟩
  | _, _ => none

/-- Reads one lexeme. -/
def feed (p : Pending) (lexeme : Lexeme) : Option Pending :=
  match p.expect with
  | .value => value p.stack lexeme
  | .valueOrEnd =>
    match p.stack, lexeme with
    -- Only directly after the opening bracket may an array end without another element.
    | .array _ :: stack, .closeBracket => some ⟨stack, .after (.array [])⟩
    | stack, lexeme => value stack lexeme
  | .key done first =>
    match lexeme with
    | .string k => some ⟨p.stack, .colon done k⟩
    | .closeBrace => if first then some ⟨p.stack, .after (.object [])⟩ else none
    | _ => none
  | .colon done key =>
    match lexeme with
    | .colon => some ⟨.object done key :: p.stack, .value⟩
    | _ => none
  | .after v => after v p.stack lexeme

/-- The document that has been read, if it is complete. -/
def document? (p : Pending) : Option Json :=
  match p.stack, p.expect with
  | [], .after v => some v
  | _, _ => none

end Pending

/-- The reader between two characters. -/
structure ReaderState where
  /-- What the lexical machine is reading. -/
  mode : Mode := .between
  /-- What the lexemes so far have made. -/
  pending : Pending := {}

namespace ReaderState

/-- Reads one character. -/
def step (s : ReaderState) (c : Char) : Option ReaderState := do
  let (lexemes, mode) ← s.mode.step c
  let pending ← lexemes.foldlM Pending.feed s.pending
  return ⟨mode, pending⟩

/-- Reads several characters. -/
def readAll (s : ReaderState) (cs : List Char) : Option ReaderState :=
  cs.foldlM step s

/-- The document that the end of the text completes. -/
def finish (s : ReaderState) : Option Json := do
  let lexemes ← s.mode.finish
  let pending ← lexemes.foldlM Pending.feed s.pending
  pending.document?

end ReaderState

/-- The document that a text holds. -/
def read? (text : String) : Option Json :=
  (({} : ReaderState).readAll text.toList).bind ReaderState.finish

end ScopeScript.Json
