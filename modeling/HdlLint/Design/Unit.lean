import HdlLint.Syntax.Unit
import HdlLint.Design.Error

/-! # Units and their architectures

An instance names an entity, and at will one of its architectures. Of units with one name the one
read last counts, and the architecture read last is the one taken when none is named. -/

namespace HdlLint.Syntax

mutual

/-- The instances a statement asks for, in the order of the text. -/
def Concurrent.instantiations : Concurrent → List Instantiation
  | .process _ => []
  | .instantiation i => [i]
  | .generate ⟨_, _, _, _, body, _⟩ => instantiations body

/-- The instances that statements ask for, also inside generate loops. -/
def instantiations : List Concurrent → List Instantiation
  | [] => []
  | c :: cs => c.instantiations ++ instantiations cs

end

mutual

/-- The number of processes written in a statement. -/
def Concurrent.processCount : Concurrent → Nat
  | .process _ => 1
  | .instantiation _ => 0
  | .generate ⟨_, _, _, _, body, _⟩ => processCount body

/-- The number of processes written in statements; those of a generate loop count once. -/
def processCount : List Concurrent → Nat
  | [] => 0
  | c :: cs => c.processCount + processCount cs

end

namespace Library

/-- The architectures of an entity, in the order of the text. -/
def architecturesOf (l : Library) (entity : String) : List Architecture :=
  l.architectures.filter (·.entity == entity)

/-- The architectures whose entity is declared. -/
def boundArchitectures (l : Library) : List Architecture :=
  l.architectures.filter fun a => (l.entity? a.entity).isSome

open Design in
/-- The entity of a name, with the architecture that is named or else the one read last. -/
def bindUnit (l : Library) (entity : String) (architecture : Option String) (span : Span) :
    Result (Entity × Architecture) :=
  match l.entity? entity with
  | none => .error (.unknownUnit entity span)
  | some e =>
    match architecture with
    | some name =>
      match (l.architecturesOf entity).reverse.find? (·.name == name) with
      | some a => .ok (e, a)
      | none => .error (.unknownArchitecture entity name span)
    | none =>
      match (l.architecturesOf entity).getLast? with
      | some a => .ok (e, a)
      | none => .error (.noArchitecture entity span)

/-- Whether some architecture asks for an instance of the entity. -/
def isInstantiated (l : Library) (entity : String) : Bool :=
  l.boundArchitectures.any fun a => (instantiations a.body).any (·.entity == entity)

/-- The entities that have an architecture and of which no architecture asks for an instance, in
alphabetical order. -/
def roots (l : Library) : List String :=
  let names := (l.boundArchitectures.map (·.entity)).eraseDups
  (names.filter fun n => !l.isInstantiated n).mergeSort (fun a b => decide (a ≤ b))

end Library

end HdlLint.Syntax
