import HdlLint.Design.Error
import HdlLint.Design.Scope

/-! # The value of a constant expression

Numbers are signed words of 64 bits; a result outside of them is a fault and never wraps around.
Composite values are not followed: an operation on one gives another. -/

namespace HdlLint.Design

namespace Word

/-- The least number. -/
def least : Int := -9223372036854775808

/-- The greatest number. -/
def greatest : Int := 9223372036854775807

/-- Whether a number fits into a word. -/
def fits (n : Int) : Bool := least ≤ n && n ≤ greatest

/-- The number itself, if it fits into a word. -/
def checked (n : Int) : Except EvalFault Int :=
  if fits n then .ok n else .error .overflow

/-- What a word keeps of a number that nobody checks. -/
def wrapped (n : Int) : Int := n.bmod 18446744073709551616

/-- The remainder with the sign of the divisor. The sum is not checked: it is between zero and the
divisor. -/
def modulo (x y : Int) : Int :=
  let r := x.tmod y
  if r ≠ 0 ∧ ¬ (r < 0 ↔ y < 0) then wrapped (r + y) else r

/-- The greatest exponent. -/
def maxExponent : Int := 4294967295

/-- `acc` times `base` to the power `n`, by squaring. Every product on the way is checked; the last
square is not taken, as nothing would be multiplied by it. -/
def powerFrom (acc base : Int) (n : Nat) : Except EvalFault Int :=
  if n = 0 then .ok acc
  else if n = 1 then checked (acc * base)
  else
    (if n % 2 = 0 then .ok acc else checked (acc * base)).bind fun acc =>
      (checked (base * base)).bind fun square => powerFrom acc square (n / 2)
termination_by n
decreasing_by exact Nat.div_lt_self (Nat.pos_of_ne_zero ‹_›) (Nat.lt_succ_self 1)

/-- `base` to the power `exponent`. -/
def power (base : Int) (exponent : Nat) : Except EvalFault Int := powerFrom 1 base exponent

/-- The arithmetic of two numbers. Division cuts toward zero, `rem` has the sign of the dividend
and `mod` that of the divisor. The least number cannot be divided by minus one, not even for its
remainder. -/
def arithmetic (op : Syntax.BinaryOp) (x y : Int) : Option (Except EvalFault Int) :=
  match op with
  | .add => some (checked (x + y))
  | .sub => some (checked (x - y))
  | .mul => some (checked (x * y))
  | .div => some (if y = 0 then .error .divisionByZero else checked (x.tdiv y))
  | .rem =>
    some (if y = 0 then .error .divisionByZero
      else if fits (x.tdiv y) then .ok (x.tmod y) else .error .overflow)
  | .mod =>
    some (if y = 0 then .error .divisionByZero
      else if fits (x.tdiv y) then .ok (modulo x y) else .error .overflow)
  | .pow =>
    some (if 0 ≤ y ∧ y ≤ maxExponent then power x y.toNat else .error .exponent)
  | _ => none

/-- The order of two numbers. -/
def comparison (op : Syntax.BinaryOp) (x y : Int) : Option Bool :=
  match op with
  | .lt => some (x < y)
  | .le => some (x ≤ y)
  | .gt => some (x > y)
  | .ge => some (x ≥ y)
  | _ => none

end Word

namespace Value

/-- The logic of two truth values. -/
def logic (op : Syntax.BinaryOp) (a b : Bool) : Option Bool :=
  match op with
  | .and => some (a && b)
  | .or => some (a || b)
  | .nand => some !(a && b)
  | .nor => some !(a || b)
  | .xor => some (a != b)
  | .xnor => some (a == b)
  | _ => none

/-- The operators that work on the bits of a character or a string. -/
def isBitwise : Syntax.BinaryOp → Bool
  | .and | .or | .nand | .nor | .xor | .xnor | .sll | .srl => true
  | _ => false

/-- Whether a value is a character or a string, whose bits are not followed. -/
def hasBits : Value → Bool
  | .char _ | .str _ => true
  | _ => false

def unary (op : Syntax.UnaryOp) (v : Value) : Except EvalFault Value :=
  match op, v with
  | _, .composite => .ok .composite
  | .neg, .int n => (Word.checked (-n)).map .int
  | .abs, .int n => (Word.checked n.natAbs).map .int
  | .pos, .int n => .ok (.int n)
  | .not, .bool b => .ok (.bool !b)
  | .not, .char _ => .ok .composite
  | .not, .str _ => .ok .composite
  | op, v => .error (.unaryKind op v.kindName)

/-- An operation on two numbers. -/
def binaryInt (op : Syntax.BinaryOp) (x y : Int) : Option (Except EvalFault Value) :=
  match Word.arithmetic op x y with
  | some r => some (r.map .int)
  | none => (Word.comparison op x y).map fun b => .ok (.bool b)

/-- An operation that is told by the values themselves. -/
def binaryKnown (op : Syntax.BinaryOp) : Value → Value → Option (Except EvalFault Value)
  | .int x, .int y => binaryInt op x y
  | .bool a, .bool b => (logic op a b).map fun r => .ok (.bool r)
  | _, _ => none

/-- An operation on two values. Values of one kind can be compared, any two can be joined, and
operations on bits are not followed. -/
def binary (op : Syntax.BinaryOp) (a b : Value) : Except EvalFault Value :=
  if a = .composite || b = .composite then .ok .composite
  else
    match binaryKnown op a b with
    | some r => r
    | none =>
      if op = .eq && a.sameKind b then .ok (.bool (a = b))
      else if op = .neq && a.sameKind b then .ok (.bool (a ≠ b))
      else if op = .concat then .ok .composite
      else if isBitwise op && a.hasBits then .ok .composite
      else .error (.binaryKind op a.kindName b.kindName)

end Value

/-- A fault of evaluation, at its place. -/
def located {α : Type} (span : Span) (r : Except EvalFault α) : Result α :=
  r.mapError fun fault => .constant fault span

/-- The value of a name, which must not stand for a signal; `none` if it stands for nothing. -/
def constant? (scope : Scope) (i : Syntax.Ident) : Result (Option Value) :=
  match scope.find? i.name with
  | some (.constant v) => .ok (some v)
  | some (.enumeration _) => .ok (some .composite)
  | some (.signal _) => .error (.notConstant i.name i.span)
  | none => .ok none

/-- The value of a name, which must stand for a constant. -/
def constant (scope : Scope) (i : Syntax.Ident) : Result Value := do
  match ← constant? scope i with
  | some v => return v
  | none => throw (.unresolvedGeneric i.name i.span)

mutual

/-- The value of an expression in which only constants occur. A name that stands for nothing can be
called: it is a function, and its result is not followed. -/
def eval (scope : Scope) : Syntax.Expr → Result Value
  | .int n _ => .ok (.int n)
  | .bool b _ => .ok (.bool b)
  | .char c _ => .ok (.char c)
  | .str t _ => .ok (.str t)
  | .name i => constant scope i
  | .call f args _ => do
    let _ ← constant? scope f
    evalAll scope args
    return .composite
  | .slice b _ _ _ _ => do
    let _ ← constant scope b
    return .composite
  | .attribute b _ _ => do
    let _ ← constant scope b
    return .composite
  | .unary op e span => do
    located span (Value.unary op (← eval scope e))
  | .binary op l r span => do
    let a ← eval scope l
    let b ← eval scope r
    located span (Value.binary op a b)
  | .aggregate vs _ => do
    evalAll scope vs
    return .composite

/-- Evaluates expressions one after the other, for their faults only. -/
def evalAll (scope : Scope) : List Syntax.Expr → Result Unit
  | [] => .ok ()
  | e :: es => do
    let _ ← eval scope e
    evalAll scope es

end

/-- The value of an expression that must be a number; `fault` tells what it is if it is another kind
of value. -/
def evalInt (scope : Scope) (e : Syntax.Expr) (fault : String → DesignError) : Result Int := do
  let v ← eval scope e
  match v with
  | .int n => return n
  | v => throw (fault v.kindName)

end HdlLint.Design
