import HdlLint.Design.Path
import HdlLint.Design.Scope

/-! # Processes of a design

Expressions and statements in which every name has been replaced by what it stands for. -/

namespace HdlLint.Design

inductive Expr where
  | signal (id : SignalId) (span : Span)
  | const (value : Value) (span : Span)
  /-- An element of a signal; `nameSpan` is that of its name. -/
  | index (id : SignalId) (nameSpan : Span) (position : Expr) (span : Span)
  | slice (id : SignalId) (nameSpan : Span) (left right : Expr) (span : Span)
  /-- A function of its arguments, or a part of a constant. -/
  | call (func : String) (args : List Expr) (span : Span)
  | attribute (id : SignalId) (nameSpan : Span) (attr : String) (span : Span)
  | unary (op : Syntax.UnaryOp) (operand : Expr) (span : Span)
  | binary (op : Syntax.BinaryOp) (lhs rhs : Expr) (span : Span)
  | aggregate (values : List Expr) (span : Span)
  deriving Inhabited

namespace Expr

def span : Expr → Span
  | .signal _ s | .const _ s | .index _ _ _ s | .slice _ _ _ _ s | .call _ _ s | .attribute _ _ _ s
  | .unary _ _ s | .binary _ _ _ s | .aggregate _ s => s

mutual

/-- The signals that occur in an expression, each with the span of its name, from left to right. -/
def signals : Expr → List (SignalId × Span)
  | .signal id s => [(id, s)]
  | .const _ _ => []
  | .index id s e _ => (id, s) :: e.signals
  | .slice id s l r _ => (id, s) :: (l.signals ++ r.signals)
  | .call _ args _ => signalsOfAll args
  | .attribute id s _ _ => [(id, s)]
  | .unary _ e _ => e.signals
  | .binary _ l r _ => l.signals ++ r.signals
  | .aggregate vs _ => signalsOfAll vs

def signalsOfAll : List Expr → List (SignalId × Span)
  | [] => []
  | e :: es => e.signals ++ signalsOfAll es

end

end Expr

/-- The part of an array that an assignment changes. -/
inductive Selector where
  | index (position : Expr)
  | slice (left right : Expr)
  deriving Inhabited

namespace Selector

/-- The signals that occur in a selector. -/
def signals : Selector → List (SignalId × Span)
  | .index e => e.signals
  | .slice l r => l.signals ++ r.signals

end Selector

structure Assignment where
  target : SignalId
  targetSpan : Span
  selector : Option Selector
  value : Expr
  span : Span
  deriving Inhabited

mutual

/-- A condition, its text, and the statements under it. -/
structure Branch where
  condition : Expr
  text : String
  body : List Stmt

/-- The choices of a case, their text, and the statements under them. -/
structure Arm where
  choices : List Expr
  text : String
  body : List Stmt

/-- A statement of a process. -/
inductive Stmt where
  | assign (a : Assignment)
  | ifs (branches : List Branch) (otherwise : Option (List Stmt)) (span : Span)
  | case (subject : Expr) (text : String) (arms : List Arm) (others : Option (List Stmt)) (span : Span)
  | null (span : Span)

end

instance : Inhabited Stmt := ⟨.null .nowhere⟩

/-- The signals whose change starts a process. -/
inductive Sensitivity where
  | all
  | list (signals : List (SignalId × Span))
  deriving DecidableEq, Repr, Inhabited

namespace Sensitivity

def covers (s : Sensitivity) (id : SignalId) : Bool :=
  match s with
  | .all => true
  | .list signals => signals.any (·.1 == id)

end Sensitivity

/-- Where a process stands in the text. -/
structure Origin where
  entity : String
  architecture : String
  /-- How many processes of the architecture stand before it. -/
  ordinal : Nat
  label : Option String
  span : Span
  deriving DecidableEq, Repr, Inhabited

/-- A process of an instance. -/
structure Process where
  origin : Origin
  name : String
  /-- The instance, and the rounds of the generate loops around the process. -/
  scope : Path
  sensitivity : Sensitivity
  body : List Stmt
  deriving Inhabited

end HdlLint.Design
