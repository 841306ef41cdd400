import HdlLint.Design.Eval
import HdlLint.Design.Resolve
import HdlLint.Design.Unit
import HdlLint.Design.Instance

/-! # Building one instance

An instance is built from its unit and from what the instance above it puts in for generics and
ports. Generate loops are unrolled: the body of a loop is built once per index, in a frame of its
own. -/

namespace HdlLint.Design

open Syntax (Library)

/-- An instance that is asked for but not built. -/
structure Pending where
  entity : Syntax.Entity
  architecture : Syntax.Architecture
  path : Path
  span : Span
  /-- What is put in for the generics, in the order of the entity, and where. -/
  generics : List (Option (Value × Span))
  /-- What is put in for the ports, in the order of the entity. -/
  ports : List PortActual
  /-- The number of the instance that asks for it; nothing asks for the top unit. -/
  parent : Option Nat := none
  deriving Inhabited

namespace Pending

/-- An instance into which nothing is put. -/
def bare (entity : Syntax.Entity) (architecture : Syntax.Architecture) (path : Path) (span : Span) :
    Pending :=
  { entity, architecture, path, span
    generics := entity.generics.map fun _ => none
    ports := entity.ports.map fun _ => .leftOpen }

/-- The instance of the number `m` asks for it. -/
def askedBy (m : Nat) (p : Pending) : Pending := { p with parent := some m }

end Pending

/-! ### Ranges and widths -/

/-- The number of indices of a range; none if it runs the wrong way. -/
def rangeLength (left : Int) (direction : Syntax.RangeDirection) (right : Int) : Nat :=
  match direction with
  | .to => (right - left + 1).toNat
  | .downto => (left - right + 1).toNat

/-- The index that follows `i`. -/
def nextIndex (direction : Syntax.RangeDirection) (i : Int) : Int :=
  match direction with
  | .to => i + 1
  | .downto => i - 1

/-- The indices of a range of `n` indices that starts with `i`. -/
def indicesFrom (direction : Syntax.RangeDirection) : Nat → Int → List Int
  | 0, _ => []
  | n + 1, i => i :: indicesFrom direction n (nextIndex direction i)

/-- The indices of a range, in its order. -/
def indices (left : Int) (direction : Syntax.RangeDirection) (right : Int) : List Int :=
  indicesFrom direction (rangeLength left direction right) left

/-- Does `step` for `n` indices from `i` on. The indices after the first fault are not looked at. -/
def foldIndices {α : Type} (step : α → Int → Result α) (direction : Syntax.RangeDirection) :
    Nat → Int → α → Result α
  | 0, _, a => .ok a
  | n + 1, i, a =>
    match step a i with
    | .ok a => foldIndices step direction n (nextIndex direction i) a
    | .error e => .error e

theorem foldIndices_eq_foldlM {α : Type} (step : α → Int → Result α)
    (direction : Syntax.RangeDirection) (n : Nat) (i : Int) (a : α) :
    foldIndices step direction n i a = (indicesFrom direction n i).foldlM step a := by
  induction n generalizing i a with
  | zero => rfl
  | succ n ih =>
    rw [foldIndices, indicesFrom, List.foldlM_cons]
    cases step a i with
    | ok a => exact ih _ _
    | error e => rfl

/-- Numbers of the types `integer`, `natural` and `positive` have this many bits. -/
def integerWidth : Nat := 32

/-- The most bits a signal can have. -/
def maxWidth : Nat := 4294967295

/-- The least number of bits, but at least `width`, that tells `literals` things apart. -/
def enumerationWidth (literals : Nat) : Nat → Nat → Nat
  | 0, width => width
  | n + 1, width => if Nat.pow 2 width < literals then enumerationWidth literals n (width + 1) else width

/-- An enumeration has at least one bit, and at most thirty-two. -/
def bitsFor (literals : Nat) : Nat := enumerationWidth literals 31 1

def isIntegerMark (mark : String) : Bool :=
  mark == "integer" || mark == "natural" || mark == "positive"

/-- A bound of the range of a type. -/
def widthBound (scope : Scope) (e : Syntax.Expr) : Result Int :=
  evalInt scope e fun found => .constant (.boundKind found) e.span

/-- The number of bits of a type. The bounds of a range must be numbers, also where they do not
matter. -/
def width (scope : Scope) (t : Syntax.Subtype) : Result Nat :=
  match t.range with
  | none =>
    if isIntegerMark t.mark then .ok integerWidth
    else
      match scope.find? t.mark with
      | some (.enumeration n) => .ok (bitsFor n)
      | _ => .ok 1
  | some r => do
    let left ← widthBound scope r.left
    let right ← widthBound scope r.right
    if isIntegerMark t.mark then
      return integerWidth
    else
      let n := rangeLength left r.direction right
      if n ≤ maxWidth then return n else throw (.constant (.tooWide n) t.span)

/-! ### Generics -/

/-- Whether a value is one of a generic's type. -/
def hasType (type : Syntax.GenericType) (v : Value) : Bool :=
  match type, v with
  | .integer, .int _ => true
  | .natural, .int n => n ≥ 0
  | .positive, .int n => n ≥ 1
  | .boolean, .bool _ => true
  | _, _ => false

/-- The value of one generic and its place: what is put in, or else the default. -/
def genericValue (p : Pending) (scope : Scope) (g : Syntax.Generic) (given : Option (Value × Span)) :
    Result (Value × Span) :=
  match given, g.default with
  | some v, _ => .ok v
  | none, some e => return (← eval scope e, e.span)
  | none, none => .error (.missingGeneric p.entity.name g.name (if p.parent.isSome then p.span else g.span))

/-- The values of generics in the order of their declaration, and the scope in which they are
visible. A default sees the generics before it. -/
def bindGenerics (p : Pending) (scope : Scope) :
    List Syntax.Generic → List (Option (Value × Span)) → Result (List (String × Value) × Scope)
  | [], _ => .ok ([], scope)
  | g :: gs, given => do
    let (v, span) ← genericValue p scope g given.head?.join
    if hasType g.type v then
      let (values, scope) ← bindGenerics p (scope.bind g.name (.constant v)) gs given.tail
      return ((g.name, v) :: values, scope)
    else
      throw (.genericType g.name g.type.spelling v.describe span)

/-! ### Ports and declarations -/

/-- Declares the ports as the first signals. -/
def bindPorts (path : Path) (scope : Scope) (signals : Array Signal) :
    List Syntax.Port → Result (Scope × Array Signal)
  | [] => .ok (scope, signals)
  | p :: ps => do
    let w ← width scope p.subtype
    bindPorts path (scope.bind p.name (.signal signals.size))
      (signals.push ⟨p.name, .port p.mode, path, w, p.span⟩) ps

/-- Makes the literals of an enumeration visible. -/
def bindLiterals (scope : Scope) (literals : List String) : Scope :=
  literals.foldl (fun s l => s.bind l (.constant (.enumeration l))) scope

/-- The number of literals of an enumeration, as a word. -/
def literalCount (literals : List String) : Nat := literals.length % (maxWidth + 1)

/-- Declares types, constants and signals, each visible to those after it. -/
def bindDecls (path : Path) (scope : Scope) (signals : Array Signal) :
    List Syntax.Decl → Result (Scope × Array Signal)
  | [] => .ok (scope, signals)
  | .enumeration name literals _ :: ds =>
    bindDecls path (bindLiterals (scope.bind name (.enumeration (literalCount literals))) literals)
      signals ds
  | .constant name _ value _ :: ds => do
    let v ← eval scope value
    bindDecls path (scope.bind name (.constant v)) signals ds
  | .signal name type _ span :: ds => do
    let w ← width scope type
    bindDecls path (scope.bind name (.signal signals.size))
      (signals.push ⟨name, .internal, path, w, span⟩) ds

/-! ### Statements -/

/-- What has been built of an instance so far. -/
structure Progress where
  signals : Array Signal
  processes : Array Process := #[]
  children : Array Pending := #[]
  deriving Inhabited

/-- What has been built, the names in sight, and the number of the next process. -/
structure Builder extends Progress where
  scope : Scope
  nextOrdinal : Nat := 0
  deriving Inhabited

/-- The place of the formal that an association means: the one it names, or the one at its own
place. -/
def formalIndex (entity : String) (names : List String) (what : Formals) (position : Nat)
    (a : Syntax.Association) : Result Nat :=
  match a.formal with
  | some f =>
    match names.findIdx? (· == f.name), what with
    | some i, _ => .ok i
    | none, .generic => .error (.unknownGeneric entity f.name a.span)
    | none, .port => .error (.unknownPort entity f.name a.span)
  | none =>
    if position < names.length then .ok position
    else .error (.tooManyAssociations entity what a.span)

/-- Puts values in for generics. An association that leaves its formal open changes nothing, and a
later one replaces an earlier one. -/
def mapGenerics (scope : Scope) (e : Syntax.Entity) :
    Nat → List Syntax.Association → List (Option (Value × Span)) → Result (List (Option (Value × Span)))
  | _, [], given => .ok given
  | position, a :: as, given => do
    let i ← formalIndex e.name (e.generics.map (·.name)) .generic position a
    match a.actual with
    | .leftOpen => mapGenerics scope e (position + 1) as given
    | .expr value =>
      let v ← eval scope value
      mapGenerics scope e (position + 1) as (given.set i (some (v, a.span)))

/-- What a resolved expression connects a port to: a signal, also where only a part of it is named,
or a value. -/
def portActual : Expr → PortActual
  | .signal id _ => .signal id
  | .index id _ _ _ => .signal id
  | .slice id _ _ _ _ => .signal id
  | e => .expr e

/-- Connects ports. A later association replaces an earlier one. -/
def mapPorts (scope : Scope) (e : Syntax.Entity) :
    Nat → List Syntax.Association → List PortActual → Result (List PortActual)
  | _, [], given => .ok given
  | position, a :: as, given => do
    let i ← formalIndex e.name (e.ports.map (·.name)) .port position a
    match a.actual with
    | .leftOpen => mapPorts scope e (position + 1) as (given.set i .leftOpen)
    | .expr value =>
      let r ← scope.resolveExpr value
      mapPorts scope e (position + 1) as (given.set i (portActual r))

/-- The instance that a statement asks for. -/
def instantiate (l : Library) (scope : Scope) (path : Path) (i : Syntax.Instantiation) :
    Result Pending := do
  let (e, a) ← l.bindUnit i.entity i.architecture i.span
  let bare := Pending.bare e a (path ++ [.inst i.label]) i.span
  let generics ← mapGenerics scope e 0 i.genericMap bare.generics
  let ports ← mapPorts scope e 0 i.portMap bare.ports
  return { bare with generics, ports }

/-- The process that a statement describes. -/
def buildProcess (a : Syntax.Architecture) (scope : Scope) (path : Path) (ordinal : Nat)
    (p : Syntax.Process) : Result Process := do
  let sensitivity ← scope.resolveSensitivity p.sensitivity
  let body ← scope.resolveBlock p.body
  let origin : Origin := ⟨a.entity, a.name, ordinal, p.label, p.span⟩
  return ⟨origin, p.label.getD ("process#" ++ toString ordinal), path, sensitivity, body⟩

/-- A bound of a generate loop. -/
def generateBound (scope : Scope) (label : String) (e : Syntax.Expr) : Result Int :=
  evalInt scope e fun found => .generateBound label found e.span

mutual

/-- Builds what a statement describes. Every round of a loop numbers its processes from the same number
on, in a frame of its own. -/
def expandStmt (l : Library) (a : Syntax.Architecture) (path : Path) (b : Builder) :
    Syntax.Concurrent → Result Builder
  | .process p => do
    let p ← buildProcess a b.scope path b.nextOrdinal p
    return { b with processes := b.processes.push p, nextOrdinal := b.nextOrdinal + 1 }
  | .instantiation i => do
    let child ← instantiate l b.scope path i
    return { b with children := b.children.push child }
  | .generate ⟨label, var, range, decls, body, _⟩ => do
    let left ← generateBound b.scope label range.left
    let right ← generateBound b.scope label range.right
    let base := b.nextOrdinal
    let b ← foldIndices (fun b i => do
        let path := path ++ [.generate label i]
        let scope := b.scope.push.bind var (.constant (.int i))
        let (scope, signals) ← bindDecls path scope b.signals decls
        let b ← expandStmts l a path { b with scope, signals, nextOrdinal := base } body
        return { b with scope := b.scope.pop })
      range.direction (rangeLength left range.direction right) left b
    return { b with nextOrdinal := base + Syntax.processCount body }

/-- Builds what statements describe, one after the other. -/
def expandStmts (l : Library) (a : Syntax.Architecture) (path : Path) (b : Builder) :
    List Syntax.Concurrent → Result Builder
  | [] => .ok b
  | c :: cs => do
    let b ← expandStmt l a path b c
    expandStmts l a path b cs

end

/-- The instance of what was built, and those that it asks for. -/
def Pending.made (p : Pending) (generics : List (String × Value)) (done : Progress) :
    Instance × List Pending :=
  ({ path := p.path, entity := p.entity.name, architecture := p.architecture.name, generics
     ports := p.ports, signals := done.signals, processes := done.processes, children := []
     span := p.span }, done.children.toList)

/-- Builds an instance; those that it asks for stay pending. -/
def Pending.build (l : Library) (p : Pending) : Result (Instance × List Pending) := do
  let (generics, scope) ← bindGenerics p .empty p.entity.generics p.generics
  let (scope, signals) ← bindPorts p.path scope #[] p.entity.ports
  let (scope, signals) ← bindDecls p.path scope signals p.architecture.decls
  let b ← expandStmts l p.architecture p.path { scope, signals } p.architecture.body
  return p.made generics b.toProgress

end HdlLint.Design
