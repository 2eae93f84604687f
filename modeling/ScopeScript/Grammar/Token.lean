/-!
# Kinds of tokens

The kinds of the leaves of a parse tree. Names and numbers are spelled by their text; every other
kind has one fixed spelling, empty for the two that mark a change of indentation.
-/

namespace ScopeScript

/-- The kind of a token. -/
inductive Token where
  -- Atoms
  | name | number | kwTrue | kwFalse | kwNone
  -- Keywords
  | kwNot | kwAnd | kwOr | kwIf | kwElif | kwElse | kwDef | kwReturn | kwAssert | kwPass | kwIn
  | kwIs | kwAwait | kwAsync
  -- Operators
  | plus | minus | star | doubleStar | slash | doubleSlash | percent | at | tilde | leftShift
  | rightShift | bar | circumflex | ampersand | equalEqual | notEqual | less | lessEqual | greater
  | greaterEqual
  -- Punctuation
  | leftParen | rightParen | leftBracket | rightBracket | dot | comma | colon | semicolon | equal
  | arrow | newline | indent | dedent
  deriving DecidableEq, Repr

namespace Token

/-- The fixed spelling of a token, absent for names and numbers, whose text varies. -/
def lexeme? : Token → Option String
  | .name | .number => none
  | .kwTrue => "True"
  | .kwFalse => "False"
  | .kwNone => "None"
  | .kwNot => "not"
  | .kwAnd => "and"
  | .kwOr => "or"
  | .kwIf => "if"
  | .kwElif => "elif"
  | .kwElse => "else"
  | .kwDef => "def"
  | .kwReturn => "return"
  | .kwAssert => "assert"
  | .kwPass => "pass"
  | .kwIn => "in"
  | .kwIs => "is"
  | .kwAwait => "await"
  | .kwAsync => "async"
  | .plus => "+"
  | .minus => "-"
  | .star => "*"
  | .doubleStar => "**"
  | .slash => "/"
  | .doubleSlash => "//"
  | .percent => "%"
  | .at => "@"
  | .tilde => "~"
  | .leftShift => "<<"
  | .rightShift => ">>"
  | .bar => "|"
  | .circumflex => "^"
  | .ampersand => "&"
  | .equalEqual => "=="
  | .notEqual => "!="
  | .less => "<"
  | .lessEqual => "<="
  | .greater => ">"
  | .greaterEqual => ">="
  | .leftParen => "("
  | .rightParen => ")"
  | .leftBracket => "["
  | .rightBracket => "]"
  | .dot => "."
  | .comma => ","
  | .colon => ":"
  | .semicolon => ";"
  | .equal => "="
  | .arrow => "->"
  | .newline => "\n"
  | .indent | .dedent => ""

/-- The text that a token has unless another is given: its fixed spelling, or nothing. -/
def spelling (t : Token) : String :=
  t.lexeme?.getD ""

end Token

end ScopeScript
