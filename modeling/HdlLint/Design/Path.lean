/-! # Places in the hierarchy of a design

A path leads from the top unit to an instance or a generate loop inside it. -/

namespace HdlLint.Design

/-- One step down the hierarchy. -/
inductive Segment where
  | inst (label : String)
  /-- One round of a generate loop. -/
  | generate (label : String) (index : Int)
  deriving DecidableEq, Repr, Inhabited

namespace Segment

def text : Segment → String
  | .inst label => label
  | .generate label index => label ++ "(" ++ toString index ++ ")"

/-- Instances come before generate loops; then labels count, then indices. -/
def compare : Segment → Segment → Ordering
  | .inst a, .inst b => Ord.compare a b
  | .inst _, .generate _ _ => .lt
  | .generate _ _, .inst _ => .gt
  | .generate a i, .generate b j => (Ord.compare a b).then (Ord.compare i j)

end Segment

/-- The steps from the top unit down. -/
abbrev Path := List Segment

namespace Path

def text (p : Path) : String :=
  ".".intercalate (p.map Segment.text)

/-- Paths are ordered like words in a dictionary. -/
def compare : Path → Path → Ordering
  | [], [] => .eq
  | [], _ :: _ => .lt
  | _ :: _, [] => .gt
  | a :: p, b :: q => (a.compare b).then (compare p q)

end Path

end HdlLint.Design
