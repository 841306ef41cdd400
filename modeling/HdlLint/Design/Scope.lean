import HdlLint.Design.Value

/-! # Visible names -/

namespace HdlLint.Design

/-- Signals of an instance are numbered in the order of their declaration, ports first. -/
abbrev SignalId := Nat

/-- What a name stands for. -/
inductive Binding where
  | signal (id : SignalId)
  | constant (value : Value)
  /-- An enumeration type with its number of literals. -/
  | enumeration (literals : Nat)
  deriving DecidableEq, Repr, Inhabited

/-- The names that one frame makes visible, the latest first. -/
abbrev Frame := List (String × Binding)

/-- A stack of frames, of which there is at least one. A name hides those spelled like it in the frames
around its own, and the earlier ones in its own. -/
structure Scope where
  inner : Frame := []
  /-- The frames around the innermost one, from the inside out. -/
  outer : List Frame := []
  deriving DecidableEq, Repr, Inhabited

namespace Scope

def empty : Scope := {}

/-- Opens a frame. -/
def push (s : Scope) : Scope := ⟨[], s.inner :: s.outer⟩

/-- Closes the innermost frame, but never the last one. -/
def pop (s : Scope) : Scope :=
  match s.outer with
  | [] => s
  | frame :: frames => ⟨frame, frames⟩

/-- Makes a name visible in the innermost frame. -/
def bind (s : Scope) (name : String) (b : Binding) : Scope :=
  { s with inner := (name, b) :: s.inner }

/-- What a name stands for. -/
def find? (s : Scope) (name : String) : Option Binding :=
  (s.inner :: s.outer).findSome? fun frame => frame.lookup name

end Scope

end HdlLint.Design
