import HdlLint.Syntax.Literal
import HdlLint.Syntax.Parse.Basic

/-! # Reading expressions

An operator binds its two operands with a power each: logical operators the least, then comparisons,
shifts, sums, products, and `**` the most. All but `**` bind the right operand more and so group to the
left. A sign, `not` or `abs` binds less than `**`, so `- a ** b` is the negation of a power. -/

namespace HdlLint.Syntax

namespace BinaryOp

def ofToken? : TokenKind → Option BinaryOp
  | .keyword .kwAnd => some .and
  | .keyword .kwOr => some .or
  | .keyword .kwNand => some .nand
  | .keyword .kwNor => some .nor
  | .keyword .kwXor => some .xor
  | .keyword .kwXnor => some .xnor
  | .symbol .equals => some .eq
  | .symbol .slashEquals => some .neq
  | .symbol .lessThan => some .lt
  | .symbol .lessEquals => some .le
  | .symbol .greaterThan => some .gt
  | .symbol .greaterEquals => some .ge
  | .keyword .kwSll => some .sll
  | .keyword .kwSrl => some .srl
  | .symbol .plus => some .add
  | .symbol .minus => some .sub
  | .symbol .ampersand => some .concat
  | .symbol .star => some .mul
  | .symbol .slash => some .div
  | .keyword .kwMod => some .mod
  | .keyword .kwRem => some .rem
  | .symbol .doubleStar => some .pow
  | _ => none

/-- How strongly an operator binds its left operand, and how strongly its right one. -/
def bindingPower : BinaryOp → Nat × Nat
  | .and | .or | .nand | .nor | .xor | .xnor => (1, 2)
  | .eq | .neq | .lt | .le | .gt | .ge => (3, 4)
  | .sll | .srl => (5, 6)
  | .add | .sub | .concat => (7, 8)
  | .mul | .div | .mod | .rem => (9, 10)
  | .pow => (12, 11)

end BinaryOp

namespace UnaryOp

def ofToken? : TokenKind → Option UnaryOp
  | .keyword .kwNot => some .not
  | .keyword .kwAbs => some .abs
  | .symbol .minus => some .neg
  | .symbol .plus => some .pos
  | _ => none

/-- How strongly a prefixed operator binds its operand. -/
def bindingPower : Nat := 11

end UnaryOp

namespace Parse

/-- The power that every operator outside of operands may have. -/
def leastPower : Nat := 0

/-- The direction and the right bound of a range whose left bound was read. -/
def rangeAfter (expr : Parse Expr) (left : Expr) : Parse Range := do
  if ← eatWord .kwTo then
    return ⟨left, .to, ← expr⟩
  else if ← eatWord .kwDownto then
    return ⟨left, .downto, ← expr⟩
  else
    expected "`to` or `downto`"

/-- What follows the tick of an attribute. A reserved word may name one, as in `x'range`. -/
def attributeAfter (base : Ident) : Parse Expr := do
  let s ← get
  if s.kind == .symbol .leftParen then
    unsupported "qualified expression"
  else if s.kind.isWord then
    advance
    return .attribute base (Ascii.lower s.text) (base.span.cover s.span)
  else
    expected "attribute name"

/-- What follows the opening parenthesis after a name: a range, or arguments. -/
def argumentsAfter (expr : Parse Expr) (base : Ident) : Parse Expr := do
  let first ← expr
  if ← atDirection then
    let r ← rangeAfter expr first
    let close ← expectSign .rightParen
    return .slice base r.left r.direction r.right (base.span.cover close)
  else if ← atSign .arrow then
    unsupported "named argument association"
  else
    let more ← fueled (moreAt .comma expr)
    let close ← expectSign .rightParen
    return .call base (first :: more) (base.span.cover close)

/-- A name and what belongs to it. -/
def nameExpr (expr : Parse Expr) : Parse Expr := do
  let i ← ident
  if i.name = "true" then
    return .bool true i.span
  else if i.name = "false" then
    return .bool false i.span
  else if ← atSign .dot then
    unsupported "selected name"
  else if ← eatSign .tick then
    attributeAfter i
  else if ← eatSign .leftParen then
    argumentsAfter expr i
  else
    return .name i

/-- An element of an aggregate, and whether a choice stands in front of it. -/
def element (expr : Parse Expr) : Parse (Expr × Bool) := do
  if ← eatWord .kwOthers then
    let _ ← expectSign .arrow
    return (← expr, true)
  else
    let e ← expr
    if ← eatSign .arrow then
      return (← expr, true)
    else if ← atSign .bar then
      fail .choiceList (← span)
    else
      return (e, false)

/-- An expression in parentheses, or an aggregate: more than one element, or one with a choice. -/
def parenExpr (expr : Parse Expr) : Parse Expr := do
  let start ← expectSign .leftParen
  let elements ← separated .comma (element expr)
  let close ← expectSign .rightParen
  match elements with
  | [(e, false)] => return e
  | _ => return .aggregate (elements.map Prod.fst) (start.cover close)

/-- An integer literal. -/
def intExpr : Parse Expr := do
  let s ← get
  match Literal.value? s.text.toList with
  | some v =>
    advance
    return .int v s.span
  | none => fail .literalRange s.span

/-- An expression without operators, where `expr` reads those inside it. -/
def primary (expr : Parse Expr) : Parse Expr := do
  let s ← get
  match s.kind with
  | .intLiteral => intExpr
  | .realLiteral => unsupported "real literal"
  | .charLiteral =>
    advance
    return .char ((s.text.toList[1]?).getD ' ') s.span
  | .stringLiteral | .bitStringLiteral =>
    advance
    return .str s.text s.span
  | .identifier => nameExpr expr
  | .symbol .leftParen => parenExpr expr
  | _ => expected "expression"

/-- An operand: a primary, or a prefixed operator with its own operand. The argument `expr` reads
an expression all of whose operators bind to the left with at least the given power. -/
def operand (expr : Nat → Parse Expr) : Parse Expr := do
  let s ← get
  match UnaryOp.ofToken? s.kind with
  | some op =>
    advance
    let e ← expr UnaryOp.bindingPower
    return .unary op e (s.span.cover e.span)
  | none => primary (expr leastPower)

/-- Goes on after an operand as long as operators follow that bind it with at least the power `least`. -/
def climb (expr : Nat → Parse Expr) (least : Nat) : Nat → Expr → Parse Expr
  | 0, lhs => return lhs
  | n + 1, lhs => do
    match BinaryOp.ofToken? (← kind) with
    | none => return lhs
    | some op =>
      if op.bindingPower.1 < least then
        return lhs
      else
        advance
        let rhs ← expr op.bindingPower.2
        climb expr least n (.join op lhs rhs)

/-- An expression whose operators outside of parentheses bind to the left with at least the power
`least`. -/
def exprAt : Nat → Nat → Parse Expr
  | 0, _ => failure
  | n + 1, least => do
    let lhs ← operand (exprAt n)
    climb (exprAt n) least n lhs

/-- An expression. -/
def expr : Parse Expr :=
  fueled fun n => exprAt n leastPower

/-- The bounds of a range. -/
def range : Parse Range := do
  rangeAfter expr (← expr)

end Parse

end HdlLint.Syntax
