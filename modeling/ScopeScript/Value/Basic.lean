import ScopeScript.Config
import ScopeScript.Syntax.Stmt
import ScopeScript.Text.Decimal

/-!
# Values

The values of a running program. A function value is the numbered definition that made it, so two
function values are equal exactly when one and the same definition made both.
-/

namespace ScopeScript

/-- The kind of a value. -/
inductive Kind where
  | none | bool | int | function | unsupported
  deriving DecidableEq, Repr

/-- The name of a kind in diagnostics. -/
def Kind.name : Kind → String
  | none => "NoneType"
  | bool => "bool"
  | int => "int"
  | function => "function"
  | unsupported => "unsupported"

/-- A value of a running program. -/
inductive Value where
  | none
  | bool (value : Bool)
  | int (value : Int64)
  /-- The function that a numbered definition makes. -/
  | function (definition : FuncDef Nat)
  /-- A stand-in for a kind that no program produces. -/
  | unsupported (what : String)
  deriving DecidableEq

namespace Value

instance : Inhabited Value := ⟨none⟩

/-- The kind of a value. -/
def kind : Value → Kind
  | none => .none
  | bool _ => .bool
  | int _ => .int
  | function _ => .function
  | unsupported _ => .unsupported

/-- Whether a value counts as true. -/
def truthy (mode : Truthiness) : Value → Bool
  | bool b => b
  | int n => match mode with
    | .strict => false
    | .python => n != 0
  | function _ => match mode with
    | .strict => false
    | .python => true
  | none => false
  | unsupported _ => false

/-- The text of a value. -/
def text : Value → String
  | none => "None"
  | bool true => "True"
  | bool false => "False"
  | int n => Text.decimal n.toInt
  | function d => "<function " ++ d.name ++ ">"
  | unsupported what => "<" ++ what ++ ">"

/-- The mode makes no difference to a truth value. -/
@[simp]
theorem truthy_bool (mode : Truthiness) (b : Bool) : (bool b).truthy mode = b := rfl

end Value

end ScopeScript
