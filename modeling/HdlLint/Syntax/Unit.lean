import HdlLint.Syntax.Expr

/-! # Design units

What a design text declares: entities with their generics and ports, and architectures with their
declarations, processes, instances of other entities and generate loops. -/

namespace HdlLint.Syntax

/-- The part of an array that an assignment changes. -/
inductive Selector where
  | index (position : Expr)
  | slice (range : Range)
  deriving Inhabited

/-- The left side of an assignment. -/
structure Target where
  ident : Ident
  selector : Option Selector
  deriving Inhabited

mutual

/-- A condition with the statements under it. -/
structure Branch where
  condition : Expr
  body : List Stmt

/-- The choices of a case with the statements under them. -/
structure Arm where
  choices : List Expr
  body : List Stmt
  span : Span

/-- A statement of a process. -/
inductive Stmt where
  | assign (target : Target) (value : Expr) (span : Span)
  | ifs (branches : List Branch) (otherwise : Option (List Stmt)) (span : Span)
  | case (subject : Expr) (arms : List Arm) (others : Option (List Stmt)) (span : Span)
  | null (span : Span)

end

instance : Inhabited Stmt := ⟨.null .nowhere⟩

/-- The type of a generic. -/
inductive GenericType where
  | integer | natural | positive | boolean
  deriving DecidableEq, Repr, Inhabited

namespace GenericType

def spelling : GenericType → String
  | .integer => "integer" | .natural => "natural" | .positive => "positive" | .boolean => "boolean"

end GenericType

/-- The direction of a port. -/
inductive Mode where
  | input | output | inout | buffer
  deriving DecidableEq, Repr, Inhabited

namespace Mode

def spelling : Mode → String
  | .input => "in" | .output => "out" | .inout => "inout" | .buffer => "buffer"

end Mode

structure Subtype where
  mark : String
  range : Option Range
  span : Span
  deriving Inhabited

structure Generic where
  name : String
  type : GenericType
  default : Option Expr
  span : Span
  deriving Inhabited

structure Port where
  name : String
  mode : Mode
  subtype : Subtype
  span : Span
  deriving Inhabited

structure Entity where
  name : String
  generics : List Generic
  ports : List Port
  span : Span
  deriving Inhabited

/-- A declaration of an architecture or a generate loop. -/
inductive Decl where
  | signal (name : String) (subtype : Subtype) (init : Option Expr) (span : Span)
  | constant (name : String) (subtype : Subtype) (value : Expr) (span : Span)
  | enumeration (name : String) (literals : List String) (span : Span)
  deriving Inhabited

/-- The signals whose change starts a process. -/
inductive Sensitivity where
  | all
  | list (names : List Ident)
  deriving Inhabited

structure Process where
  label : Option String
  sensitivity : Sensitivity
  body : List Stmt
  span : Span
  deriving Inhabited

/-- What is put in for a generic or a port of an instance. -/
inductive Actual where
  | expr (value : Expr)
  | leftOpen
  deriving Inhabited

structure Association where
  formal : Option Ident
  actual : Actual
  span : Span
  deriving Inhabited

structure Instantiation where
  label : String
  entity : String
  architecture : Option String
  genericMap : List Association
  portMap : List Association
  span : Span
  deriving Inhabited

mutual

/-- A loop that repeats its body once per index of its range. -/
structure Generate where
  label : String
  var : String
  range : Range
  decls : List Decl
  body : List Concurrent
  span : Span

/-- A statement of an architecture. -/
inductive Concurrent where
  | process (p : Process)
  | instantiation (i : Instantiation)
  | generate (g : Generate)

end

instance : Inhabited Concurrent := ⟨.process default⟩

structure Architecture where
  name : String
  entity : String
  decls : List Decl
  body : List Concurrent
  span : Span
  deriving Inhabited

/-- The units of a design in the order in which they were read. -/
structure Library where
  entities : List Entity := []
  architectures : List Architecture := []
  deriving Inhabited

namespace Library

/-- Both libraries, the units of `a` first. -/
def append (a b : Library) : Library :=
  ⟨a.entities ++ b.entities, a.architectures ++ b.architectures⟩

/-- The entity of a name; of several, the one read last. -/
def entity? (l : Library) (name : String) : Option Entity :=
  l.entities.reverse.find? (·.name == name)

end Library

end HdlLint.Syntax
