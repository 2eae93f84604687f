/-!
# JSON documents

JSON as far as settings and arguments need it. Of a number only its integer value is kept, of a
string its text. A string literal may escape half of a surrogate pair alone; it is well formed then,
but has no text.
-/

namespace ScopeScript

/-- A JSON document. -/
inductive Json where
  | null
  | bool (value : Bool)
  /-- A number with its value, if it is written as an integer: without a fraction or an exponent,
  and not as a negative zero. -/
  | number (integer : Option Int)
  /-- A string with its text, unless a surrogate is escaped alone. -/
  | string (text : Option String)
  | array (items : List Json)
  /-- An object with its members in order, each key with its text like a string. -/
  | object (members : List (Option String × Json))

end ScopeScript
