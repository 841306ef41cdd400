import HdlLint.Source

/-! # Written expressions

Every node carries the span from which it was read. Names are in small letters. -/

namespace HdlLint.Syntax

/-- An occurrence of a name. -/
structure Ident where
  name : String
  span : Span
  deriving DecidableEq, Repr, Inhabited

inductive UnaryOp where
  | not | neg | pos | abs
  deriving DecidableEq, Repr, Inhabited

inductive BinaryOp where
  | and | or | nand | nor | xor | xnor
  | eq | neq | lt | le | gt | ge
  | sll | srl
  | add | sub | concat
  | mul | div | mod | rem
  | pow
  deriving DecidableEq, Repr, Inhabited

namespace UnaryOp

def spelling : UnaryOp → String
  | .not => "not" | .neg => "-" | .pos => "+" | .abs => "abs"

/-- Operators that are words are set off from their operand by a blank. -/
def isWord : UnaryOp → Bool
  | .not | .abs => true
  | .neg | .pos => false

end UnaryOp

namespace BinaryOp

def spelling : BinaryOp → String
  | .and => "and" | .or => "or" | .nand => "nand" | .nor => "nor" | .xor => "xor" | .xnor => "xnor"
  | .eq => "=" | .neq => "/=" | .lt => "<" | .le => "<=" | .gt => ">" | .ge => ">="
  | .sll => "sll" | .srl => "srl"
  | .add => "+" | .sub => "-" | .concat => "&"
  | .mul => "*" | .div => "/" | .mod => "mod" | .rem => "rem"
  | .pow => "**"

end BinaryOp

/-- Whether a range counts up or down. -/
inductive RangeDirection where
  | to | downto
  deriving DecidableEq, Repr, Inhabited

namespace RangeDirection

def spelling : RangeDirection → String
  | .to => "to" | .downto => "downto"

end RangeDirection

inductive Expr where
  | int (value : Int) (span : Span)
  | bool (value : Bool) (span : Span)
  | char (value : Char) (span : Span)
  /-- A string or bit string, as it was written. -/
  | str (text : String) (span : Span)
  | name (ident : Ident)
  /-- A call, or an element of an array: the two are written alike. -/
  | call (callee : Ident) (args : List Expr) (span : Span)
  | slice (base : Ident) (left : Expr) (direction : RangeDirection) (right : Expr) (span : Span)
  | attribute (base : Ident) (attr : String) (span : Span)
  | unary (op : UnaryOp) (operand : Expr) (span : Span)
  | binary (op : BinaryOp) (lhs rhs : Expr) (span : Span)
  /-- The values of an aggregate; the choices in front of them are not kept. -/
  | aggregate (values : List Expr) (span : Span)
  deriving Inhabited

namespace Expr

def span : Expr → Span
  | .int _ s | .bool _ s | .char _ s | .str _ s | .call _ _ s | .slice _ _ _ _ s | .attribute _ _ s
  | .unary _ _ s | .binary _ _ _ s | .aggregate _ s => s
  | .name i => i.span

/-- A binary operation spans its two operands. -/
def join (op : BinaryOp) (lhs rhs : Expr) : Expr :=
  .binary op lhs rhs (lhs.span.cover rhs.span)

end Expr

/-- The bounds of a range. -/
structure Range where
  left : Expr
  direction : RangeDirection
  right : Expr
  deriving Inhabited

end HdlLint.Syntax
