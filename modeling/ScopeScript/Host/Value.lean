import ScopeScript.Json.Reader
import ScopeScript.Json.Writer
import ScopeScript.Value.Basic
import ScopeScript.Word

/-!
# Values that cross to the host

What a host passes to a function and gets back: plain data, a function being known by its name. In
JSON a host value has no tag; its shape tells what it is.
-/

namespace ScopeScript

/-- A value that crosses between a program and its host. -/
inductive HostValue where
  | none
  | bool (value : Bool)
  | int (value : Int64)
  /-- A function, by name. -/
  | function (name : String)
  deriving DecidableEq, Repr

namespace HostValue

/-- The value as an expression: a literal, or the name of the function. -/
def toExpr : HostValue → Expr
  | none => .none
  | bool b => .bool b
  | int n => .int n
  | function name => .name name

/-- The value in compact JSON. -/
def encode : HostValue → String
  | none => "null"
  | bool true => "true"
  | bool false => "false"
  | int n => Text.decimal n.toInt
  | function name => Json.quote name

/-- Several values in compact JSON, as an array. -/
def encodeAll (values : List HostValue) : String :=
  "[" ++ ",".intercalate (values.map encode) ++ "]"

/-- The value that a document spells. -/
def ofJson? : Json → Option HostValue
  | .null => some none
  | .bool b => some (bool b)
  | .number (some z) => (Word.ofInt? z).map int
  | .string (some s) => some (function s)
  | _ => Option.none

/-- The value that a text spells. -/
def decode? (text : String) : Option HostValue :=
  (Json.read? text).bind ofJson?

/-- The values that a text spells as an array. -/
def decodeAll? (text : String) : Option (List HostValue) :=
  match Json.read? text with
  | some (.array items) => items.mapM ofJson?
  | _ => Option.none

end HostValue

/-- What the host gets of a value. -/
def Value.toHost : Value → HostValue
  | none => .none
  | bool b => .bool b
  | int n => .int n
  | function d => .function d.name
  | unsupported _ => .none

end ScopeScript
