import HdlLint.Design.Stmt

/-! # Clocked processes

The body of a clocked process is a single `if` of which one condition, and no other, asks for an
edge of a signal that starts the process. -/

namespace HdlLint.Flow

open Design (SignalId Expr Stmt Branch Process)

inductive Edge where
  | rising
  | falling
  deriving DecidableEq, Repr, Inhabited

/-- The condition that makes a process clocked. -/
structure ClockGuard where
  signal : SignalId
  edge : Edge
  /-- The place of the condition among those of the `if`. -/
  branch : Nat
  span : Span
  deriving DecidableEq, Repr, Inhabited

/-- The signal that an expression names as a whole or in part. -/
def clockSignal? : Expr → Option SignalId
  | .signal id _ => some id
  | .index id _ _ _ => some id
  | .slice id _ _ _ _ => some id
  | _ => none

/-- The edge after which a signal has the value of an expression. -/
def levelEdge? : Expr → Option Edge
  | .const (.char '1') _ => some .rising
  | .const (.char '0') _ => some .falling
  | _ => none

/-- The function that asks for an edge. -/
def edgeFunction? (name : String) : Option Edge :=
  if name = "rising_edge" then some .rising
  else if name = "falling_edge" then some .falling
  else none

/-- The signal that `level` compares with the value it has after an edge, if `event` asks whether
that signal has changed. -/
def eventAndLevel? (event level : Expr) : Option (SignalId × Edge) :=
  match event, level with
  | .attribute id _ attr _, .binary .eq lhs rhs _ =>
    if attr = "event" then
      match clockSignal? lhs, clockSignal? rhs with
      | some s, _ => if s = id then (levelEdge? rhs).map (s, ·) else none
      | none, some s => if s = id then (levelEdge? lhs).map (s, ·) else none
      | none, none => none
    else none
  | _, _ => none

/-- The edge that a condition asks for, and nothing besides. -/
def edge? : Expr → Option (SignalId × Edge)
  | .call func [arg] _ =>
    match edgeFunction? func, clockSignal? arg with
    | some e, some s => some (s, e)
    | _, _ => none
  | .binary .and lhs rhs _ => (eventAndLevel? lhs rhs).orElse fun _ => eventAndLevel? rhs lhs
  | _ => none

/-- The conditions from index `i` on that ask for an edge. -/
def guards (i : Nat) : List Branch → List ClockGuard
  | [] => []
  | b :: bs =>
    match edge? b.condition with
    | some (signal, edge) => ⟨signal, edge, i, b.condition.span⟩ :: guards (i + 1) bs
    | none => guards (i + 1) bs

/-- The guard of a clocked process. -/
def clockGuard? (p : Process) : Option ClockGuard :=
  match p.body with
  | [.ifs branches _ _] =>
    match guards 0 branches with
    | [g] => if p.sensitivity.covers g.signal then some g else none
    | _ => none
  | _ => none

end HdlLint.Flow
