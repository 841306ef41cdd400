import HdlLint.Design.UnitGraph

/-! # Order and components of a graph

Two algorithms on graphs are taken as given: one puts the units in order, and one divides them into
components. A design has few units, so both can be done by trying all of them. -/

namespace HdlLint.Design

/-- The algorithms on graphs by which cycles are found. -/
structure GraphAlgorithms where
  /-- The units in an order in which each comes before those it asks for. -/
  toposort : UnitGraph → Option (List Nat)
  /-- The strongly connected components. -/
  components : UnitGraph → List (List Nat)

namespace UnitGraph

/-- The places in `seen`, and all that are reached from them in at most `n` steps. -/
def closure (g : UnitGraph) : Nat → List Nat → List Nat
  | 0, seen => seen
  | n + 1, seen =>
    let fresh := ((seen.flatMap g.successors).filter fun i => !seen.contains i).eraseDups
    if fresh.isEmpty then seen else closure g n (seen ++ fresh)

/-- The places that are reached from `i` in one step or more. -/
def reached (g : UnitGraph) (i : Nat) : List Nat :=
  closure g g.units.length (g.successors i).eraseDups

/-- Whether `i` and `j` are the same or reach each other. -/
def connected (g : UnitGraph) (i j : Nat) : Bool :=
  i == j || (g.reached i).contains j && (g.reached j).contains i

/-- The places that are connected with `i`. -/
def componentOf (g : UnitGraph) (i : Nat) : List Nat :=
  (List.range g.units.length).filter (g.connected i)

/-- The components, in the order of their first places. -/
def components (g : UnitGraph) : List (List Nat) :=
  ((List.range g.units.length).filter fun i => (g.componentOf i).head? == some i).map g.componentOf

/-- Puts a place in front that no other of the rest leads to, and orders what is left. -/
def order (g : UnitGraph) : Nat → List Nat → Option (List Nat)
  | 0, rest => if rest.isEmpty then some [] else none
  | n + 1, rest =>
    match rest.find? fun i => rest.all fun j => !g.hasEdge j i with
    | some i => (order g n (rest.erase i)).map (i :: ·)
    | none => if rest.isEmpty then some [] else none

end UnitGraph

/-- Order and components by trying all places. -/
def GraphAlgorithms.search : GraphAlgorithms where
  toposort g := g.order g.units.length (List.range g.units.length)
  components g := g.components

end HdlLint.Design
