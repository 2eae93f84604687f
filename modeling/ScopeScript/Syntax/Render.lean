import ScopeScript.Syntax.Stmt
import ScopeScript.Text.Decimal
import ScopeScript.Text.Lines

/-!
# Rendering

The text of an expression, a statement or a block. An operand is parenthesised where it binds looser
than its place allows, and nowhere else. The body of a compound statement stands on lines of its
own, one tab deeper than its header; an empty body is written `pass`.
-/

namespace ScopeScript

namespace Expr

/-- The text of an operand in a place that takes constructs of strength `least` bare. -/
def operandText (least strength : Strength) (text : String) : String :=
  if strength < least then "(" ++ text ++ ")" else text

mutual

/-- The text of an expression. -/
def render : Expr → String
  | none => "None"
  | bool true => "True"
  | bool false => "False"
  | int n => Text.decimal n.toInt
  | name id => id
  | unary op a => op.symbol ++ operandText op.operandStrength a.strength (render a)
  | binary op a b =>
    operandText op.leftStrength a.strength (render a) ++ " " ++ op.symbol ++ " " ++
      operandText op.rightStrength b.strength (render b)
  | ternary b c o =>
    operandText Strength.disjunction b.strength (render b) ++ " if " ++
      operandText Strength.disjunction c.strength (render c) ++ " else " ++ render o
  | call f as =>
    operandText Strength.atom f.strength (render f) ++ "(" ++ ", ".intercalate (renderAll as) ++ ")"

/-- The texts of several expressions. -/
def renderAll : List Expr → List String
  | [] => []
  | e :: es => render e :: renderAll es

end

/-- The texts of several expressions are the text of each. -/
theorem renderAll_eq_map (es : List Expr) : renderAll es = es.map render := by
  induction es with
  | nil => rfl
  | cons e es ih => simp [renderAll, ih]

end Expr

/-- A block's text one tab deeper, given the texts of its statements. -/
def Stmt.indented : List String → String
  | [] => "\tpass"
  | texts => "\n".intercalate ((Text.lines ("\n".intercalate texts)).map ("\t" ++ ·))

mutual

/-- The text of a statement. -/
def Stmt.render {δ : Type} : Stmt δ → String
  | .assign target hint value =>
    target ++ (match hint with | .none => "" | .some h => ": " ++ h.render) ++
      (match value with | .none => "" | .some v => " = " ++ v.render)
  | .assert es => "assert " ++ ", ".intercalate (es.map Expr.render)
  | .cond c b .none => "if " ++ c.render ++ ":\n" ++ Stmt.indented (Stmt.renderAll b)
  | .cond c b (.some o) =>
    "if " ++ c.render ++ ":\n" ++ Stmt.indented (Stmt.renderAll b) ++ "\nelse:\n" ++
      Stmt.indented (Stmt.renderAll o)
  | .ret .none => "return"
  | .ret (.some v) => "return " ++ v.render
  | .funcDef _ n ps b =>
    "def " ++ n ++ "(" ++ ", ".intercalate ps ++ "):\n" ++ Stmt.indented (Stmt.renderAll b)
  | .simple ss => "; ".intercalate (Stmt.renderAll ss)
  | .expr e => e.render
  | .pass => "pass"

/-- The texts of several statements. -/
def Stmt.renderAll {δ : Type} : List (Stmt δ) → List String
  | [] => []
  | s :: ss => Stmt.render s :: Stmt.renderAll ss

end

/-- The texts of several statements are the text of each. -/
theorem Stmt.renderAll_eq_map {δ : Type} (ss : List (Stmt δ)) :
    Stmt.renderAll ss = ss.map Stmt.render := by
  induction ss with
  | nil => rfl
  | cons s ss ih => simp [Stmt.renderAll, ih]

/-- The text of a block: its statements, each from a new line. -/
def Block.render {δ : Type} (b : Block δ) : String :=
  "\n".intercalate (Stmt.renderAll b)

end ScopeScript
