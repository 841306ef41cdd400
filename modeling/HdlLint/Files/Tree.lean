import HdlLint.Files.Path

/-! # Files that can be read -/

namespace HdlLint.Files

/-- Why a file cannot be read. -/
inductive ReadFault where
  | notFound
  | notDirectory
  | isDirectory
  | notText
  | other (message : String)
  deriving DecidableEq, Repr, Inhabited

namespace ReadFault

def message : ReadFault → String
  | .notFound => "No such file or directory (os error 2)"
  | .notDirectory => "Not a directory (os error 20)"
  | .isDirectory => "Is a directory (os error 21)"
  | .notText => "stream did not contain valid UTF-8"
  | .other message => message

end ReadFault

/-- What a program can ask about files. -/
structure FileSystem (m : Type → Type) where
  currentDirectory : m String
  isDirectory : String → m Bool
  isFile : String → m Bool
  read : String → m (Except ReadFault String)
  /-- The files in a directory and in those below it, in any order. -/
  filesBelow : String → m (Except ReadFault (List String))

/-- A file or a directory, by the directories that lead to it from the root. -/
structure Node where
  place : List String
  /-- The text of a file. -/
  text : Option String
  deriving DecidableEq, Repr, Inhabited

/-- Files in memory. -/
structure Tree where
  currentDirectory : List String
  nodes : List Node
  deriving DecidableEq, Repr, Inhabited

namespace Tree

/-- The directories above a place, the root first. -/
def above : List String → List (List String)
  | [] => []
  | n :: ns => [] :: (above ns).map (n :: ·)

/-- Adds a file or a directory, and the directories that lead to it. -/
def add (t : Tree) (place : List String) (text : Option String) : Tree :=
  { t with nodes := t.nodes ++ (above place).map (⟨·, none⟩) ++ [⟨place, text⟩] }

/-- What is at a place: what was put there last. -/
def at? (t : Tree) (place : List String) : Option Node :=
  t.nodes.reverse.find? (·.place == place)

/-- Goes on from a directory, part by part of a name. -/
def walk (t : Tree) : List String → List String → Except ReadFault Node
  | place, [] =>
    match t.at? place with
    | some n => .ok n
    | none => .error .notFound
  | place, p :: ps =>
    match t.at? place with
    | none => .error .notFound
    | some ⟨_, some _⟩ => .error .notDirectory
    | some ⟨_, none⟩ =>
      if p = "" || p = "." then t.walk place ps
      else if p = ".." then t.walk place.dropLast ps
      else t.walk (place ++ [p]) ps

/-- What a name stands for. -/
def find (t : Tree) (name : String) : Except ReadFault Node :=
  if name = "" then .error .notFound
  else t.walk (if isAbsolute name then [] else t.currentDirectory) (parts name)

def isDirectory (t : Tree) (name : String) : Bool :=
  match t.find name with
  | .ok ⟨_, none⟩ => true
  | _ => false

def isFile (t : Tree) (name : String) : Bool :=
  match t.find name with
  | .ok ⟨_, some _⟩ => true
  | _ => false

def read (t : Tree) (name : String) : Except ReadFault String :=
  match t.find name with
  | .ok ⟨_, some text⟩ => .ok text
  | .ok ⟨_, none⟩ => .error .isDirectory
  | .error e => .error e

/-- The way from a directory to a place below it. -/
def below? : List String → List String → Option (List String)
  | [], place => some place
  | _ :: _, [] => none
  | d :: ds, n :: ns => if d = n then below? ds ns else none

/-- The files of a directory and of those below it. -/
def filesBelow (t : Tree) (name : String) : Except ReadFault (List String) := do
  let dir ← t.find name
  let files := (t.nodes.filter (·.text.isSome)).filterMap fun n => below? dir.place n.place
  return files.eraseDups.map fun rest => join name ("/".intercalate rest)

/-- Files in memory as files that can be read. -/
def fileSystem (t : Tree) : FileSystem Id where
  currentDirectory := "/" ++ "/".intercalate t.currentDirectory
  isDirectory := t.isDirectory
  isFile := t.isFile
  read := t.read
  filesBelow := t.filesBelow

end Tree

end HdlLint.Files
