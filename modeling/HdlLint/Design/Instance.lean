import HdlLint.Syntax.Unit
import HdlLint.Design.Stmt

/-! # Instances of a design -/

namespace HdlLint.Design

/-- What a signal is to its instance. -/
inductive SignalKind where
  | port (mode : Syntax.Mode)
  | internal
  deriving DecidableEq, Repr, Inhabited

structure Signal where
  name : String
  kind : SignalKind
  /-- The instance, and the rounds of the generate loops around the declaration. -/
  scope : Path
  /-- The number of bits. -/
  width : Nat
  span : Span
  deriving DecidableEq, Repr, Inhabited

namespace Signal

def isPort (s : Signal) : Bool :=
  match s.kind with
  | .port _ => true
  | .internal => false

end Signal

/-- What a port of an instance is connected to in the instance above it. -/
inductive PortActual where
  | signal (id : SignalId)
  | expr (value : Expr)
  | leftOpen
  deriving Inhabited

/-- An instance of a unit, with all its names resolved. -/
structure Instance where
  path : Path
  entity : String
  architecture : String
  /-- The values of the entity's generics, in the order of its declaration. -/
  generics : List (String × Value)
  /-- The connections of the entity's ports, in the order of its declaration. -/
  ports : List PortActual
  signals : Array Signal
  processes : Array Process
  /-- The numbers of the instances below this one. -/
  children : List Nat
  /-- Where the instance is asked for; for the top unit, its entity. -/
  span : Span
  deriving Inhabited

namespace Instance

/-- The value of the first generic of a name. -/
def generic? (i : Instance) (name : String) : Option Value := i.generics.lookup name

/-- The name of a signal. -/
def signalName (i : Instance) (id : SignalId) : String :=
  (i.signals[id]?).elim "<unknown>" (·.name)

end Instance

/-- The hierarchy of a top unit. Instances are numbered level by level; the first is the top. -/
structure Hierarchy where
  top : String
  instances : List Instance
  deriving Inhabited

namespace Hierarchy

def processCount (h : Hierarchy) : Nat :=
  h.instances.foldr (fun i n => i.processes.size + n) 0

end Hierarchy

end HdlLint.Design
