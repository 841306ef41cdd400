/-! # Numbered names

A table gives each distinct name a number: the count of names before it. -/

namespace HdlLint

structure NameTable where
  names : Array String := #[]
  deriving Inhabited

namespace NameTable

/-- The number of a name that is in the table. -/
def find? (t : NameTable) (name : String) : Option Nat :=
  t.names.findIdx? (· == name)

/-- The number of a name, which is entered if it is new. -/
def intern (t : NameTable) (name : String) : Nat × NameTable :=
  match t.find? name with
  | some n => (n, t)
  | none => (t.names.size, ⟨t.names.push name⟩)

end NameTable

end HdlLint
