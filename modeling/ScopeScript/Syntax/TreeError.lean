import ScopeScript.Grammar.Node

/-!
# Faults of a parse tree

Why no syntax can be read from a parse tree. The first fault met ends the reading.
-/

namespace ScopeScript

/-- A part that a node of some production has to have. -/
inductive Part where
  /-- A child built from a production. -/
  | production (r : Rule)
  /-- A name token. -/
  | name
  deriving DecidableEq, Repr

/-- The part as a diagnostic names it. -/
def Part.label : Part → String
  | production r => r.name
  | name => "NAME"

/-- Why no syntax can be read from a parse tree. -/
inductive TreeError where
  /-- A node that the language leaves out, with the text that it covers. -/
  | unsupported (rule : Rule) (text : String)
  /-- A node without a part that the grammar promises. -/
  | missing (rule : Rule) (part : Part)
  /-- A number that is no integer literal. -/
  | invalidLiteral (text : String)
  deriving DecidableEq, Repr

/-- The diagnostic for a fault. -/
def TreeError.message : TreeError → String
  | unsupported r text => "unsupported " ++ r.name ++ ": `" ++ text ++ "`"
  | missing r part => "malformed " ++ r.name ++ ": missing " ++ part.label
  | invalidLiteral text => "invalid integer literal `" ++ text ++ "`"

namespace Node

/-- The fault that the language leaves the node out. -/
def unsupported (n : Node) : TreeError :=
  .unsupported n.rule n.text

/-- What was read from a child of production `r`, which the node has to have. -/
def need {α : Type} (n : Node) (r : Rule) (found : Option (Except TreeError α)) :
    Except TreeError α :=
  match found with
  | some result => result
  | none => .error (.missing n.rule (.production r))

/-- What was read from a child without which the node is outside the language. -/
def supported {α : Type} (n : Node) (found : Option (Except TreeError α)) : Except TreeError α :=
  match found with
  | some result => result
  | none => .error n.unsupported

/-- The text of the first name token, which the node has to have. -/
def needName (n : Node) : Except TreeError String :=
  match n.token? .name with
  | some text => .ok text
  | none => .error (.missing n.rule .name)

end Node

end ScopeScript
