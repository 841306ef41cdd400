import HdlLint.Syntax.Printer
import HdlLint.Syntax.Unit
import HdlLint.Design.Error
import HdlLint.Design.Stmt

/-! # What the names of a process stand for -/

namespace HdlLint.Design

/-- Attributes that depend on the value of a signal or on its history. The others, such as `length`,
depend only on its type. -/
def valueAttributes : List String :=
  ["event", "stable", "quiet", "active", "last_value", "last_event", "last_active", "transaction",
    "delayed", "driving", "driving_value"]

def readsValue (attr : String) : Bool := valueAttributes.contains attr

namespace Scope

variable (scope : Scope)

/-- The signal that a name stands for. -/
def signal (i : Syntax.Ident) : Result SignalId :=
  match scope.find? i.name with
  | some (.signal id) => .ok id
  | some _ => .error (.notSignal i.name i.span)
  | none => .error (.unresolved i.name i.span)

/-- An expression that is a name. -/
def resolveName (i : Syntax.Ident) : Result Expr :=
  match scope.find? i.name with
  | some (.signal id) => .ok (.signal id i.span)
  | some (.constant v) => .ok (.const v i.span)
  | some (.enumeration _) => .ok (.const .composite i.span)
  | none => .error (.unresolved i.name i.span)

/-- The index of an element: one position, or several taken together. -/
def elementIndex (args : List Expr) (span : Span) : Expr :=
  match args with
  | [e] => e
  | es => .aggregate es span

/-- A call whose arguments were resolved: an element of a signal, or a function of its arguments. -/
def resolveCall (callee : Syntax.Ident) (args : List Expr) (span : Span) : Expr :=
  match scope.find? callee.name with
  | some (.signal id) => .index id callee.span (elementIndex args span) span
  | _ => .call callee.name args span

/-- A slice whose bounds were resolved. -/
def resolveSlice (base : Syntax.Ident) (left right : Expr) (span : Span) : Result Expr :=
  match scope.find? base.name with
  | some (.signal id) => .ok (.slice id base.span left right span)
  | some _ => .ok (.call base.name [left, right] span)
  | none => .error (.unresolved base.name base.span)

/-- An attribute. One that does not depend on the signal's value is a constant. -/
def resolveAttribute (base : Syntax.Ident) (attr : String) (span : Span) : Result Expr :=
  match scope.find? base.name with
  | some (.signal id) =>
    if readsValue attr then .ok (.attribute id base.span attr span) else .ok (.const .composite span)
  | some _ => .ok (.const .composite span)
  | none => .error (.unresolved base.name base.span)

mutual

def resolveExpr : Syntax.Expr → Result Expr
  | .int n s => .ok (.const (.int n) s)
  | .bool b s => .ok (.const (.bool b) s)
  | .char c s => .ok (.const (.char c) s)
  | .str t s => .ok (.const (.str t) s)
  | .name i => scope.resolveName i
  | .call f args s => do
    return scope.resolveCall f (← resolveExprs args) s
  | .slice b l _ r s => do
    let left ← resolveExpr l
    let right ← resolveExpr r
    scope.resolveSlice b left right s
  | .attribute b a s => scope.resolveAttribute b a s
  | .unary op e s => do
    return .unary op (← resolveExpr e) s
  | .binary op l r s => do
    let left ← resolveExpr l
    let right ← resolveExpr r
    return .binary op left right s
  | .aggregate vs s => do
    return .aggregate (← resolveExprs vs) s

def resolveExprs : List Syntax.Expr → Result (List Expr)
  | [] => .ok []
  | e :: es => do
    let e ← resolveExpr e
    let es ← resolveExprs es
    return e :: es

end

def resolveSelector : Syntax.Selector → Result Selector
  | .index e => return .index (← scope.resolveExpr e)
  | .slice r => do
    let left ← scope.resolveExpr r.left
    let right ← scope.resolveExpr r.right
    return .slice left right

def resolveSelector? : Option Syntax.Selector → Result (Option Selector)
  | none => .ok none
  | some s => return some (← scope.resolveSelector s)

mutual

def resolveStmt : Syntax.Stmt → Result Stmt
  | .assign target value span => do
    let id ← scope.signal target.ident
    let selector ← scope.resolveSelector? target.selector
    let value ← scope.resolveExpr value
    return .assign ⟨id, target.ident.span, selector, value, span⟩
  | .ifs branches otherwise span => do
    let branches ← resolveBranches branches
    let otherwise ← resolveBlock? otherwise
    return .ifs branches otherwise span
  | .case subject arms others span => do
    let arms ← resolveArms arms
    let others ← resolveBlock? others
    let resolved ← scope.resolveExpr subject
    return .case resolved subject.printOperand arms others span
  | .null span => .ok (.null span)

def resolveBlock : List Syntax.Stmt → Result (List Stmt)
  | [] => .ok []
  | s :: ss => do
    let s ← resolveStmt s
    let ss ← resolveBlock ss
    return s :: ss

def resolveBlock? : Option (List Syntax.Stmt) → Result (Option (List Stmt))
  | none => .ok none
  | some b => return some (← resolveBlock b)

def resolveBranches : List Syntax.Branch → Result (List Branch)
  | [] => .ok []
  | ⟨condition, body⟩ :: bs => do
    let resolved ← scope.resolveExpr condition
    let body ← resolveBlock body
    let bs ← resolveBranches bs
    return ⟨resolved, condition.printOperand, body⟩ :: bs

def resolveArms : List Syntax.Arm → Result (List Arm)
  | [] => .ok []
  | ⟨choices, body, _⟩ :: as => do
    let resolved ← scope.resolveExprs choices
    let body ← resolveBlock body
    let as ← resolveArms as
    return ⟨resolved, "|".intercalate (choices.map Syntax.Expr.printOperand), body⟩ :: as

end

/-- The signals named in a sensitivity list, in its order. -/
def resolveSignals : List Syntax.Ident → Result (List (SignalId × Span))
  | [] => .ok []
  | i :: is => do
    let id ← scope.signal i
    let rest ← resolveSignals is
    return (id, i.span) :: rest

def resolveSensitivity : Syntax.Sensitivity → Result Sensitivity
  | .all => .ok .all
  | .list names => return .list (← scope.resolveSignals names)

end Scope

end HdlLint.Design
