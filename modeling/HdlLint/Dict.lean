/-! # Dictionaries

Values by name, in ascending order of the names, each name once. -/

namespace HdlLint

abbrev Dict (α : Type) := List (String × α)

namespace Dict

variable {α : Type}

/-- Enters a value in place of the one that the name may have. -/
def insert (d : Dict α) (name : String) (a : α) : Dict α :=
  match d with
  | [] => [(name, a)]
  | (n, b) :: rest =>
    if name < n then (name, a) :: (n, b) :: rest
    else if name = n then (name, a) :: rest
    else (n, b) :: Dict.insert rest name a

/-- Of values under one name the last counts. -/
def ofList (entries : List (String × α)) : Dict α :=
  entries.foldl (fun d (name, a) => Dict.insert d name a) []

end Dict

end HdlLint
