import HdlLint.Design.Unit

/-! # Which unit asks for which

The graph of a top unit has a node for each unit that is reached from it, in the order of
discovery, and an edge for each instance a unit asks for, also inside a generate loop that may
turn out empty. A design whose graph has a cycle has no finite hierarchy. -/

namespace HdlLint.Design

open Syntax (Library)

/-- An entity with one of its architectures. -/
structure UnitKey where
  entity : String
  architecture : String
  deriving DecidableEq, Repr, Inhabited

namespace UnitKey

def text (k : UnitKey) : String := k.entity ++ "(" ++ k.architecture ++ ")"

end UnitKey

/-- The unit `source` asks for an instance of the unit `target` at `span`. Units are given by their
place in the list of units. -/
structure Edge where
  source : Nat
  target : Nat
  span : Span
  deriving DecidableEq, Repr, Inhabited

structure UnitGraph where
  units : List UnitKey
  /-- In the order of discovery. -/
  edges : List Edge
  deriving DecidableEq, Repr, Inhabited

namespace UnitGraph

/-- The place of a unit, which is entered at the end if it is new. -/
def place (g : UnitGraph) (k : UnitKey) : Nat × UnitGraph :=
  match g.units.findIdx? (· == k) with
  | some i => (i, g)
  | none => (g.units.length, { g with units := g.units ++ [k] })

/-- Enters one instance that the unit at `source` asks for. -/
def addInstance (l : Library) (source : Nat) (g : UnitGraph) (i : Syntax.Instantiation) :
    Result UnitGraph := do
  let (_, a) ← l.bindUnit i.entity i.architecture i.span
  let (target, g) := g.place ⟨i.entity, a.name⟩
  return { g with edges := g.edges ++ [⟨source, target, i.span⟩] }

/-- Enters the instances of the units from `next` on, which may add units behind them. -/
def explore (l : Library) (span : Span) : Nat → Nat → UnitGraph → Result UnitGraph
  | 0, _, g => .ok g
  | n + 1, next, g =>
    match g.units[next]? with
    | none => .ok g
    | some k => do
      let (_, a) ← l.bindUnit k.entity (some k.architecture) span
      let g ← (Syntax.instantiations a.body).foldlM (addInstance l next) g
      explore l span n (next + 1) g

/-- The graph of the units that are reached from `top`. It has at most one unit per architecture. -/
def build (l : Library) (top : String) (span : Span) : Result UnitGraph := do
  let (_, a) ← l.bindUnit top none span
  explore l span (l.architectures.length + 1) 0 ⟨[⟨top, a.name⟩], []⟩

/-- The edges of a unit, in the order of its text. -/
def edgesOf (g : UnitGraph) (i : Nat) : List Edge :=
  g.edges.filter (·.source == i)

def successors (g : UnitGraph) (i : Nat) : List Nat :=
  (g.edgesOf i).map (·.target)

/-- Whether the unit at `i` asks for the one at `j`. -/
def hasEdge (g : UnitGraph) (i j : Nat) : Bool := (g.successors i).contains j

end UnitGraph

end HdlLint.Design
