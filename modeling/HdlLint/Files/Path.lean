/-! # Names of files

A file is named by the directories that lead to it, with slashes in between. Two names can be
written differently and still be the same: repeated slashes and single dots do not count, unless a
dot comes first. -/

namespace HdlLint.Files

/-- The parts between slashes. -/
def splitSlashes : List Char → List (List Char)
  | [] => [[]]
  | c :: cs =>
    if c = '/' then [] :: splitSlashes cs
    else
      match splitSlashes cs with
      | [] => [[c]]
      | part :: parts => (c :: part) :: parts

/-- The parts of a name, empty ones included. -/
def parts (name : String) : List String := (splitSlashes name.toList).map String.ofList

def isAbsolute (name : String) : Bool := name.toList.head? == some '/'

/-- The name of something in a directory. An absolute name stays as it is. -/
def join (directory name : String) : String :=
  if isAbsolute name || directory.isEmpty then name
  else if directory.toList.getLast? == some '/' then directory ++ name
  else directory ++ "/" ++ name

/-! ### Parts that count -/

/-- A step towards a file. -/
inductive Step where
  | root
  | here
  | up
  | down (name : String)
  deriving DecidableEq, Repr, Inhabited

namespace Step

def rank : Step → Nat
  | .root => 0
  | .here => 1
  | .up => 2
  | .down _ => 3

def compare (a b : Step) : Ordering :=
  match a, b with
  | .down m, .down n => Ord.compare m n
  | a, b => Ord.compare a.rank b.rank

/-- The step that a part stands for, if it counts. -/
def ofPart? (part : String) : Option Step :=
  if part = "" || part = "." then none
  else if part = ".." then some .up
  else some (.down part)

end Step

/-- The steps of a name. A dot counts as the first part only. -/
def steps (name : String) : List Step :=
  let ps := parts name
  let body := ps.filterMap Step.ofPart?
  if isAbsolute name then .root :: body
  else if ps.head? == some "." then .here :: body
  else body

/-- Whether two names are the same but for what does not count. -/
def same (a b : String) : Bool := steps a == steps b

def compareSteps : List Step → List Step → Ordering
  | [], [] => .eq
  | [], _ :: _ => .lt
  | _ :: _, [] => .gt
  | a :: as, b :: bs => (a.compare b).then (compareSteps as bs)

/-- Names are ordered step by step. -/
def compare (a b : String) : Ordering := compareSteps (steps a) (steps b)

/-- The names without those that are the same as an earlier one. -/
def distinct : List String → List String
  | [] => []
  | n :: ns => n :: (distinct ns).filter fun m => !same n m

/-! ### Directories -/

/-- Takes slashes and dots that do not count off the end of a name, which is given backwards. The
first `keep` characters stay. -/
def trimBack (keep : Nat) : List Char → List Char
  | '/' :: r => if r.length < keep then '/' :: r else trimBack keep r
  | '.' :: '/' :: r => if r.length < keep then '/' :: r else trimBack keep r
  | r => r

/-- The directory that a name is in, as far as the name tells. -/
def parent? (name : String) : Option String :=
  let cs := name.toList
  let keep := if isAbsolute name || (parts name).head? == some "." then 1 else 0
  match trimBack keep cs.reverse with
  | [] | ['/'] => none
  | r => some (String.ofList (trimBack keep (r.dropWhile (· != '/'))).reverse)

/-- A directory and those above it, as far as `n` steps up. -/
def ancestors : Nat → String → List String
  | 0, name => [name]
  | n + 1, name =>
    match parent? name with
    | none => [name]
    | some above => name :: ancestors n above

/-- What follows the last dot of a file's own name, unless nothing comes before the dot. -/
def extension? (name : String) : Option String :=
  match (steps name).getLast? with
  | some (.down n) =>
    let back := n.toList.reverse
    match back.dropWhile (· != '.') with
    | '.' :: _ :: _ => some (String.ofList (back.takeWhile (· != '.')).reverse)
    | _ => none
  | _ => none

end HdlLint.Files
