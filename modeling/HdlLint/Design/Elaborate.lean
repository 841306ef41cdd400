import HdlLint.Text.Ascii
import HdlLint.Design.Cycle
import HdlLint.Design.Build

/-! # The hierarchy of a top unit

Instances are built level by level: the top unit, the instances it asks for, those that they ask
for, and so on. The unit graph is refused before that if it has a cycle, so there are at most as
many levels as units. -/

namespace HdlLint.Design

open Syntax (Library)

/-- Values for the generics of a top unit, by name. -/
abbrev Overrides := List (String × Value)

/-- Puts values in for the generics of the top unit, one after the other. -/
def applyOverrides (e : Syntax.Entity) :
    Overrides → List (Option (Value × Span)) → Result (List (Option (Value × Span)))
  | [], given => .ok given
  | (name, v) :: rest, given =>
    let lowered := Ascii.lower name
    match e.generics.findIdx? (·.name == lowered) with
    | none => .error (.unknownGeneric e.name lowered e.span)
    | some i => applyOverrides e rest (given.set i (some (v, (e.generics[i]?).elim e.span (·.span))))

/-- Puts an instance behind those that are built, and its number among the children of the one that asks
for it. -/
def attach (built : List Instance) (parent : Option Nat) (i : Instance) : List Instance :=
  match parent with
  | none => built ++ [i]
  | some m => (built ++ [i]).modify m fun above => { above with children := above.children ++ [built.length] }

/-- Builds the instances of one level behind those that are built. What they ask for is the next level. -/
def buildLevel (l : Library) (built : List Instance) :
    List Pending → Result (List Instance × List Pending)
  | [] => .ok (built, [])
  | p :: ps => do
    let (i, children) ← p.build l
    let (all, below) ← buildLevel l (attach built p.parent i) ps
    return (all, children.map (·.askedBy built.length) ++ below)

/-- Builds a level and all levels below it. -/
def buildLevels (l : Library) : Nat → List Instance → List Pending → Result (List Instance)
  | 0, built, _ => .ok built
  | n + 1, built, level =>
    match level with
    | [] => .ok built
    | _ :: _ => do
      let (built, below) ← buildLevel l built level
      buildLevels l n built below

/-- A top unit that has been found, with the graph of its units. -/
structure Top where
  entity : Syntax.Entity
  architecture : Syntax.Architecture
  graph : UnitGraph
  deriving Inhabited

/-- Finds a top unit and checks that its hierarchy is finite. -/
def findTop (l : Library) (top : String) : Result Top :=
  match l.entity? (Ascii.lower top) with
  | none => .error (.topNotFound top)
  | some e => do
    let (e, a) ← l.bindUnit e.name none e.span
    let graph ← UnitGraph.build l e.name e.span
    graph.checkAcyclic
    return ⟨e, a, graph⟩

/-- Builds the hierarchy of a top unit that has been found. -/
def Top.elaborate (l : Library) (t : Top) (overrides : Overrides) : Result Hierarchy := do
  let bare := Pending.bare t.entity t.architecture [] t.entity.span
  let generics ← applyOverrides t.entity overrides bare.generics
  let instances ← buildLevels l t.graph.units.length [] [{ bare with generics }]
  return ⟨t.entity.name, instances⟩

/-- The hierarchy of the top unit of a name, whose letters may be of either case. -/
def elaborate (l : Library) (top : String) (overrides : Overrides) : Result Hierarchy := do
  (← findTop l top).elaborate l overrides

end HdlLint.Design
