import HdlLint.Design.Scope

/-! # Sets and maps of signals

Both are lists in ascending order without repeats, so that two sets with the same members are the
same list. -/

namespace HdlLint.Flow

open Design (SignalId)

/-- Signals in ascending order, each once. -/
abbrev SignalSet := List SignalId

namespace SignalSet

def insert (s : SignalSet) (id : SignalId) : SignalSet :=
  match s with
  | [] => [id]
  | x :: xs => if id < x then id :: x :: xs else if id = x then x :: xs else x :: SignalSet.insert xs id

def union (s t : SignalSet) : SignalSet := t.foldl SignalSet.insert s

def inter (s t : SignalSet) : SignalSet := s.filter fun id => t.contains id

end SignalSet

/-- Values by signal, in ascending order of the signals. -/
abbrev SignalMap (α : Type) := List (SignalId × α)

namespace SignalMap

variable {α : Type}

/-- Enters a value unless the signal has one. -/
def insertNew (m : SignalMap α) (id : SignalId) (a : α) : SignalMap α :=
  match m with
  | [] => [(id, a)]
  | (x, b) :: rest =>
    if id < x then (id, a) :: (x, b) :: rest
    else if id = x then (x, b) :: rest
    else (x, b) :: SignalMap.insertNew rest id a

/-- The first value of each signal. -/
def firsts (occurrences : List (SignalId × α)) : SignalMap α :=
  occurrences.foldl (fun m (id, a) => SignalMap.insertNew m id a) []

def keys (m : SignalMap α) : SignalSet := m.map (·.1)

end SignalMap

end HdlLint.Flow
