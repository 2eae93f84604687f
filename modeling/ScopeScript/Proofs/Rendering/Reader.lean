import ScopeScript.Grammar.Token
import ScopeScript.Proofs.Literal.Decimal
import ScopeScript.Syntax.Render

/-!
# A reader of rendered expressions

A machine that shifts and reduces over the text of an expression, with a stack of the constructs
that are still open. It either awaits an operand or holds one. What follows an operand, its link,
pulls at the open constructs: those that take at least as tight a right edge are complete and are
closed around the operand before the link is entered.

The reader stops at the first text that continues no expression, and returns what it read and the
text that is left. That it reads back what rendering writes is shown apart, in
`ScopeScript.Proofs.Rendering.Recovery`.

* `Reader.atom?_of_identifier`, `Reader.atom?_decimal`: names and numbers are told apart.
* `Reader.link?_text`: every link is found by its text.
* `Reader.size_lt_of_step`: every step either uses up text or closes a construct, so the reader
  stops.
-/

namespace ScopeScript

/-! ### Words -/

/-- The words that the language keeps for itself, those of the constants included. -/
def keywords : List String :=
  [Token.kwTrue, .kwFalse, .kwNone, .kwNot, .kwAnd, .kwOr, .kwIf, .kwElif, .kwElse, .kwDef,
   .kwReturn, .kwAssert, .kwPass, .kwIn, .kwIs, .kwAwait, .kwAsync].filterMap Token.lexeme?

namespace Text

/-- Whether a character may stand in a word: a letter or a digit of ASCII, or an underscore. -/
def isWordChar (c : Char) : Bool :=
  c.isAlphanum || c == '_'

/-- Whether a text is a word. -/
def isWord (s : String) : Bool :=
  s.toList != [] && s.toList.all isWordChar

/-- Whether a digit leads a text. -/
def ledByDigit (s : String) : Bool :=
  s.toList.head?.any Char.isDigit

/-- A word has a character, and its characters are those of words. -/
theorem isWord_iff {s : String} :
    isWord s = true ↔ s.toList ≠ [] ∧ ∀ c ∈ s.toList, isWordChar c = true := by
  rw [isWord, Bool.and_eq_true, bne_iff_ne, List.all_eq_true]

end Text

/-- A text that may be a name: a word that no digit leads and that is no keyword. -/
structure Identifier (x : String) : Prop where
  /-- The text is a word. -/
  isWord : Text.isWord x = true
  /-- No digit leads the word. -/
  ledByDigit : Text.ledByDigit x = false
  /-- The word is no keyword. -/
  not_keyword : x ∉ keywords

instance (x : String) : Decidable (Identifier x) :=
  decidable_of_iff (Text.isWord x = true ∧ Text.ledByDigit x = false ∧ x ∉ keywords)
    ⟨fun h => ⟨h.1, h.2.1, h.2.2⟩, fun h => ⟨h.1, h.2, h.3⟩⟩

namespace Reader

open Text (isWordChar isWord ledByDigit)

/-- The atom that a word spells. A keyword other than the constants spells none. -/
def atom? (w : String) : Option Expr :=
  if w = "None" then some .none
  else if w = "True" then some (.bool true)
  else if w = "False" then some (.bool false)
  else if w = "" ∨ w ∈ keywords then none
  else
    match Literal.read? w with
    | some n => some (.int n)
    | none => some (.name w)

/-- A text that no digit leads is no literal. -/
theorem read?_eq_none_of_ledByDigit {x : String} (h : ledByDigit x = false) :
    Literal.read? x = none := by
  apply Literal.read?_eq_none_of_isWellFormed
  cases hx : x.toList with
  | nil => rfl
  | cons c cs =>
    have hc : c.isDigit = false := by
      rw [ledByDigit, hx] at h
      exact h
    -- A character that is no digit would have to be an underscore, which may not stand first.
    by_cases hunderscore : c = '_' <;> simp [Literal.isWellFormed, hc, hunderscore]

/-- A name spells itself. -/
theorem atom?_of_identifier {x : String} (hx : Identifier x) : atom? x = some (.name x) := by
  have hne : ∀ w ∈ keywords, x ≠ w := fun w hw h => hx.not_keyword (h ▸ hw)
  have hempty : x ≠ "" := by
    rintro rfl
    exact absurd hx.isWord (by decide)
  rw [atom?, if_neg (hne _ (by decide)), if_neg (hne _ (by decide)), if_neg (hne _ (by decide)),
    if_neg (not_or.2 ⟨hempty, hx.not_keyword⟩), read?_eq_none_of_ledByDigit hx.ledByDigit]

/-- No keyword is led by a digit. -/
theorem ledByDigit_of_mem_keywords {w : String} (hw : w ∈ keywords) : ledByDigit w = false := by
  revert w
  decide

/-- The text of a word in decimal spells the word, unless a sign leads it. -/
theorem atom?_decimal {n : Int64} (hn : ¬ n < 0) :
    atom? (Text.decimal n.toInt) = some (.int n) := by
  have hread := Literal.read?_decimal hn
  -- A literal is led by a digit, so it is neither a keyword nor empty.
  have hne : ∀ w, ledByDigit w = false → Text.decimal n.toInt ≠ w := by
    rintro w hw rfl
    rw [read?_eq_none_of_ledByDigit hw] at hread
    cases hread
  have hkeyword : ¬ (Text.decimal n.toInt = "" ∨ Text.decimal n.toInt ∈ keywords) := by
    rintro (h | h)
    · exact hne "" rfl h
    · exact hne _ (ledByDigit_of_mem_keywords h) rfl
  rw [atom?, if_neg (hne _ rfl), if_neg (hne _ rfl), if_neg (hne _ rfl), if_neg hkeyword, hread]

/-! ### Links -/

/-- What may follow an operand. -/
inductive Link where
  /-- An operator and its right operand. -/
  | operator (op : BinaryOp)
  /-- The condition of a choice. -/
  | condition
  /-- The alternative of a choice. -/
  | orelse
  /-- The arguments of a call. -/
  | arguments
  /-- A further argument. -/
  | comma
  /-- The end of a group or of arguments. -/
  | close

namespace Link

/-- How a link is written. The operator `is not` is entered as `is`. -/
def text : Link → List Char
  | operator op => ' ' :: op.symbol.toList ++ [' ']
  | condition => " if ".toList
  | orelse => " else ".toList
  | arguments => ['(']
  | comma => [',', ' ']
  | close => [')']

/-- How hard a link pulls at the operand before it: constructs that take a looser right edge stay
open. -/
def pull : Link → Strength
  | operator op => op.strength + 1
  | condition | orelse => Strength.disjunction
  | arguments => Strength.atom
  | comma | close => 0

/-- The links, each with a text that begins no other's. -/
def all : List Link :=
  [.operator .or, .operator .and, .operator .eq, .operator .notEq, .operator .lt, .operator .le,
   .operator .gt, .operator .ge, .operator .isIn, .operator .notIn, .operator .is,
   .operator .bitOr, .operator .bitXor, .operator .bitAnd, .operator .shl, .operator .shr,
   .operator .add, .operator .sub, .operator .mul, .operator .div, .operator .floorDiv,
   .operator .mod, .operator .matMul, .operator .pow, .condition, .orelse, .arguments, .comma,
   .close]

end Link

/-- The link that leads a text. -/
def link? (text : List Char) : Option Link :=
  Link.all.find? fun l => l.text.isPrefixOf text

/-- How hard a text pulls at the operand before it. -/
def pull (text : List Char) : Strength :=
  (link? text).elim 0 Link.pull

/-- Every link is found by its text, except that `is not` begins with `is`. -/
theorem link?_text {l : Link} (hl : l ≠ .operator .isNot) (rest : List Char) :
    link? (l.text ++ rest) = some l := by
  -- Symbols that begin with one another part at the blank behind the shorter one.
  cases l with
  | operator op =>
    cases op with
    | isNot => exact absurd rfl hl
    | _ => rfl
  | _ => rfl

/-- The link that leads a text leads it with its own. -/
theorem text_append_drop {text : List Char} {l : Link} (h : link? text = some l) :
    l.text ++ text.drop l.text.length = text := by
  have hprefix := List.find?_some h
  rw [List.isPrefixOf_iff_prefix] at hprefix
  obtain ⟨rest, rfl⟩ := hprefix
  rw [List.drop_left]

/-- A link is written in at least one character. -/
theorem length_text_pos (l : Link) : 0 < l.text.length := by
  cases l <;> exact Nat.succ_pos _

/-! ### The machine -/

/-- A construct that is open, with what has been read of it. -/
inductive Pending where
  /-- An operator that awaits its operand. -/
  | unary (op : UnaryOp)
  /-- An operator that awaits its right operand. -/
  | binary (op : BinaryOp) (lhs : Expr)
  /-- A choice that awaits its condition. -/
  | condition (body : Expr)
  /-- A choice that awaits its alternative. -/
  | orelse (body condition : Expr)
  /-- An open parenthesis. -/
  | group
  /-- A call with its arguments so far. -/
  | arguments (callee : Expr) (before : List Expr)

namespace Pending

/-- The least strength of an operand that may stand bare in the open place. -/
def least : Pending → Strength
  | unary op => op.operandStrength
  | binary op _ => op.rightStrength
  | condition _ | orelse _ _ | group | arguments _ _ => 0

/-- The construct with its last operand, if no further text is to close it. -/
def fill? (e : Expr) : Pending → Option Expr
  | unary op => some (.unary op e)
  | binary op a => some (.binary op a e)
  | orelse b c => some (.ternary b c e)
  | condition _ | group | arguments _ _ => none

end Pending

/-- The least strength of an operand that may stand bare in the innermost open place. -/
def least : List Pending → Strength
  | [] => 0
  | f :: _ => f.least

/-- A state of the reader. -/
inductive State where
  /-- An operand is to come. -/
  | operand (frames : List Pending) (text : List Char)
  /-- An operand has been read. -/
  | link (frames : List Pending) (operand : Expr) (text : List Char)

/-- Reads what stands behind the word `not`. Behind `is`, the word belongs to the operator. -/
def negationStep : List Pending → List Char → Option State
  | .binary .is a :: outer, ' ' :: rest => some (.operand (.binary .isNot a :: outer) rest)
  | frames, ' ' :: rest => some (.operand (.unary .not :: frames) rest)
  | _, _ => none

/-- Reads the word `w`, behind which stands `rest`. -/
def wordStep (frames : List Pending) (w : String) (rest : List Char) : Option State :=
  if w = "not" then negationStep frames rest
  else (atom? w).map fun e => .link frames e rest

/-- Reads what leads an operand. -/
def operandStep (frames : List Pending) : List Char → Option State
  | '-' :: rest => some (.operand (.unary .neg :: frames) rest)
  | '+' :: rest => some (.operand (.unary .pos :: frames) rest)
  | '~' :: rest => some (.operand (.unary .bitNot :: frames) rest)
  | '*' :: rest => some (.operand (.unary .star :: frames) rest)
  | '(' :: rest => some (.operand (.group :: frames) rest)
  | ')' :: rest =>
    -- A call without arguments is closed before it has an operand.
    match frames with
    | .arguments f [] :: outer => some (.link outer (.call f []) rest)
    | _ => none
  | text =>
    wordStep frames (String.ofList (text.takeWhile isWordChar)) (text.dropWhile isWordChar)

/-- Enters a link behind an operand. -/
def enter (frames : List Pending) (e : Expr) (rest : List Char) : Link → Option State
  | .operator op => some (.operand (.binary op e :: frames) rest)
  | .condition => some (.operand (.condition e :: frames) rest)
  | .orelse =>
    match frames with
    | .condition b :: outer => some (.operand (.orelse b e :: outer) rest)
    | _ => none
  | .arguments => some (.operand (.arguments e [] :: frames) rest)
  | .comma =>
    match frames with
    | .arguments f es :: outer => some (.operand (.arguments f (es ++ [e]) :: outer) rest)
    | _ => none
  | .close =>
    match frames with
    | .group :: outer => some (.link outer e rest)
    | .arguments f es :: outer => some (.link outer (.call f (es ++ [e])) rest)
    | _ => none

/-- The stack and the operand once the innermost construct is closed, if the text behind the operand
closes it. -/
def reduce? (e : Expr) (text : List Char) : List Pending → Option (List Pending × Expr)
  | [] => none
  | f :: outer =>
    if pull text ≤ f.least then (f.fill? e).map fun e => (outer, e)
    else none

/-- One step of the reader. -/
def step : State → Option State
  | .operand frames text => operandStep frames text
  | .link frames e text =>
    -- What the text completes is closed first, one construct at a step, then the link is entered.
    match reduce? e text frames with
    | some (outer, e) => some (.link outer e text)
    | none => (link? text).bind fun l => enter frames e (text.drop l.text.length) l

/-- What the reader still has to do: the text that is left, and the constructs to close. -/
def State.size : State → Nat
  -- A character opens at most one construct, which is closed later.
  | .operand frames text | .link frames _ text => 2 * text.length + frames.length

/-- A word that spells an atom, and the word `not`, have a character. -/
theorem size_lt_of_wordStep {frames : List Pending} {w : String} {rest text : List Char} {c : State}
    (htext : text = w.toList ++ rest) (h : wordStep frames w rest = some c) :
    c.size < 2 * text.length + frames.length := by
  subst htext
  rw [wordStep] at h
  split at h
  · next hw =>
    subst hw
    unfold negationStep at h
    split at h
    case h_3 => cases h
    all_goals
      cases h
      simp [State.size]
      omega
  · obtain ⟨e, he, rfl⟩ := Option.map_eq_some_iff.1 h
    have hw : w ≠ "" := by
      rintro rfl
      cases he
    have hlength : 0 < w.toList.length := List.length_pos_iff.2 (by simpa using hw)
    simp only [State.size, List.length_append]
    omega

/-- What leads an operand uses up text. -/
theorem size_lt_of_operandStep {frames : List Pending} {text : List Char} {c : State}
    (h : operandStep frames text = some c) : c.size < 2 * text.length + frames.length := by
  unfold operandStep at h
  split at h
  case h_6 rest =>
    split at h
    · cases h
      simp [State.size]
      omega
    · cases h
  case h_7 =>
    refine size_lt_of_wordStep ?_ h
    rw [String.toList_ofList, List.takeWhile_append_dropWhile]
  all_goals
    cases h
    simp [State.size]
    omega

/-- A link uses up its text. -/
theorem size_lt_of_enter {frames : List Pending} {e : Expr} {text rest : List Char} {l : Link}
    {c : State} (htext : rest.length < text.length) (h : enter frames e rest l = some c) :
    c.size < 2 * text.length + frames.length := by
  unfold enter at h
  split at h
  case h_3 | h_5 =>
    split at h
    · cases h
      simp [State.size]
      omega
    · cases h
  case h_6 =>
    split at h
    case h_3 => cases h
    all_goals
      cases h
      simp [State.size]
      omega
  all_goals
    cases h
    simp [State.size]
    omega

/-- Every step either uses up text or closes a construct. -/
theorem size_lt_of_step {c d : State} (h : step c = some d) : d.size < c.size := by
  cases c with
  | operand frames text => exact size_lt_of_operandStep h
  | link frames e text =>
    rw [step] at h
    split at h
    · next outer e' hreduce =>
      cases frames with
      | nil => cases hreduce
      | cons f outer =>
        simp only [reduce?, Option.ite_none_right_eq_some, Option.map_eq_some_iff,
          Prod.mk.injEq] at hreduce
        obtain ⟨-, e', -, rfl, rfl⟩ := hreduce
        cases h
        simp [State.size]
    · obtain ⟨l, hl, henter⟩ := Option.bind_eq_some_iff.1 h
      refine size_lt_of_enter ?_ henter
      have hlength := congrArg List.length (text_append_drop hl)
      have hpos := length_text_pos l
      rw [List.length_append] at hlength
      omega

/-- The state in which the reader stops. -/
def run (c : State) : State :=
  match _hstep : step c with
  | none => c
  | some d => run d
termination_by c.size
decreasing_by exact size_lt_of_step _hstep

/-- The reader goes on from the next state. -/
theorem run_of_step {c d : State} (h : step c = some d) : run c = run d := by
  rw [run]
  split
  · next hnone => rw [hnone] at h; cases h
  · next d' hsome =>
    rw [hsome] at h
    cases h
    rfl

/-- The reader stops in a state without a next one. -/
theorem run_of_stuck {c : State} (h : step c = none) : run c = c := by
  rw [run]
  split
  · rfl
  · next d' hsome => rw [hsome] at h; cases h

end Reader

/-- The expression that leads a text, with the text that is left. -/
def Expr.read? (text : List Char) : Option (Expr × List Char) :=
  match Reader.run (.operand [] text) with
  | .link [] e rest => .some (e, rest)
  | _ => .none

end ScopeScript
