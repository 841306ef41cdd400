import HdlLint.Design.GraphSearch

/-! # Cycles of units

A unit that asks for itself, by way of others or not, has no finite hierarchy. Whether there is such a
unit is told by an order of the graph, and which one by its components. -/

namespace HdlLint.Design.UnitGraph

/-- Whether there is a cycle in a component: it has several units, or one that asks for itself. -/
def isCyclic (g : UnitGraph) (component : List Nat) : Bool :=
  component.length > 1 || component.head?.any fun i => g.hasEdge i i

/-- The component with a cycle that has the first unit. -/
def firstCyclic? (g : UnitGraph) (algorithms : GraphAlgorithms) : Option (List Nat) :=
  ((algorithms.components g).filter g.isCyclic).minOn? fun component => component.min?.getD 0

/-- Looks for a way from `node` back to `start`, depth first, through units that are in `members`
and not in `visited`. Gives the edges of the way, and all units visited. -/
def wayBack (g : UnitGraph) (members : List Nat) (start : Nat) :
    Nat → Nat → List Nat → Option (List Edge) × List Nat
  | 0, _, visited => (none, visited)
  | n + 1, node, visited =>
    (g.edgesOf node).foldl
      (fun (found, visited) e =>
        if found.isSome then (found, visited)
        else if e.target = start then (some [e], visited)
        else if !members.contains e.target || visited.contains e.target then (none, visited)
        else
          let (way, visited) := wayBack g members start n e.target (e.target :: visited)
          (way.map (e :: ·), visited))
      (none, visited)

/-- The units of a cycle through `start`, each once, and the place of its first edge. If no way leads
back, there is only `start`, and no place. -/
def cycleFrom (g : UnitGraph) (members : List Nat) (start : Nat) : List Nat × Span :=
  match (g.wayBack members start g.units.length start [start]).1 with
  | some way => (start :: (way.map (·.target)).dropLast, way.head?.elim .nowhere (·.span))
  | none => ([start], .nowhere)

/-- The name of the entity at a place. -/
def entityAt (g : UnitGraph) (i : Nat) : String :=
  (g.units[i]?).elim "" (·.entity)

/-- Refuses a graph that has no order. What is told is a cycle of the first component that has one,
from its first unit back to it, at the place where that unit asks for the second. -/
def checkAcyclic (g : UnitGraph) (algorithms : GraphAlgorithms := .search) : Result Unit :=
  if (algorithms.toposort g).isSome then .ok ()
  else
    match g.firstCyclic? algorithms with
    | none => .ok ()
    | some members =>
      let start := members.min?.getD (members.headD 0)
      let (path, span) := g.cycleFrom members start
      .error (.cycle (path.map g.entityAt ++ [g.entityAt start]) span)

end HdlLint.Design.UnitGraph
