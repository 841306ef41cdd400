import HdlLint.Syntax.Expr

/-! # Expressions as text

An expression is written back as it could stand in a design. Operations that are operands of
others are put in parentheses, so that the text reads back as the same expression whatever the
powers of its operators. -/

namespace HdlLint.Syntax.Expr

/-- Puts parentheses around a text if `nested`. -/
def enclose (nested : Bool) (text : String) : String :=
  if nested then "(" ++ text ++ ")" else text

mutual

/-- The text of an expression; `nested` tells that it is an operand. -/
def write (nested : Bool) : Expr → String
  | .int v _ => toString v
  | .bool v _ => if v then "true" else "false"
  | .char c _ => "'" ++ String.singleton c ++ "'"
  | .str t _ => t
  | .name i => i.name
  | .call f args _ => f.name ++ "(" ++ writeAll args ++ ")"
  | .slice b l d r _ =>
    b.name ++ "(" ++ write false l ++ " " ++ d.spelling ++ " " ++ write false r ++ ")"
  | .attribute b a _ => b.name ++ "'" ++ a
  | .unary op e _ =>
    enclose nested (op.spelling ++ (if op.isWord then " " else "") ++ write true e)
  | .binary op l r _ =>
    enclose nested (write true l ++ " " ++ op.spelling ++ " " ++ write true r)
  | .aggregate vs _ => "(" ++ writeAll vs ++ ")"

/-- The texts of several expressions, divided by commas. -/
def writeAll : List Expr → String
  | [] => ""
  | [e] => write false e
  | e :: es => write false e ++ ", " ++ writeAll es

end

/-- The text of an expression that stands for itself. -/
def print (e : Expr) : String := write false e

/-- The text of an expression that is part of another text. -/
def printOperand (e : Expr) : String := write true e

end HdlLint.Syntax.Expr
