import ScopeScript.Text.Decimal

/-!
# Writing JSON

Strings in compact JSON. A quotation mark, a backslash and the control characters below the space
are escaped, the latter by a letter where there is one; everything else stands for itself.
-/

namespace ScopeScript.Json

/-- A hexadecimal digit, in lower case. -/
def hexDigit (n : Nat) : Char :=
  if n < 10 then Char.ofNat ('0'.toNat + n) else Char.ofNat ('a'.toNat + (n - 10))

/-- A character inside a string. -/
def escapeChar (c : Char) : List Char :=
  match c with
  | '"' => ['\\', '"']
  | '\\' => ['\\', '\\']
  | '\x08' => ['\\', 'b']
  | '\x0c' => ['\\', 'f']
  | '\n' => ['\\', 'n']
  | '\r' => ['\\', 'r']
  | '\t' => ['\\', 't']
  | c =>
    if c.toNat < 0x20 then ['\\', 'u', '0', '0', hexDigit (c.toNat / 16), hexDigit (c.toNat % 16)]
    else [c]

/-- A text as a string. -/
def quote (s : String) : String :=
  String.ofList ('"' :: s.toList.flatMap escapeChar ++ ['"'])

/-- Control characters are escaped, other characters are not. -/
example : quote "a\"\\\n\x01é" = "\"a\\\"\\\\\\n\\u0001é\"" := by decide +kernel

end ScopeScript.Json
