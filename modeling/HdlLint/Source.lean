/-! # Source text

A design is read from files. A `Span` is a range of bytes of one file, and a `Location` is what a
reader is shown of it: the file's name, a line and a column, both counted from one. -/

namespace HdlLint

/-- The bytes from `start` up to, but not including, `stop` of the file with index `file`. -/
structure Span where
  file : Nat
  start : Nat
  stop : Nat
  deriving DecidableEq, Repr, Inhabited

namespace Span

/-- The file index of spans that belong to no file. -/
def noFile : Nat := 4294967295

/-- The span of something that stands in no file. -/
def nowhere : Span := ⟨noFile, 0, 0⟩

def isNowhere (s : Span) : Bool := s.file == noFile

/-- The smallest span that covers `a` and `b`; `a` itself if they are in different files. -/
def cover (a b : Span) : Span :=
  if a.file = b.file then ⟨a.file, min a.start b.start, max a.stop b.stop⟩ else a

/-- Spans are ordered by file, then start, then stop. -/
def before (a b : Span) : Bool :=
  a.file < b.file || (a.file == b.file && (a.start < b.start || (a.start == b.start && a.stop < b.stop)))

/-- The earlier of two spans. -/
def earlier (a b : Span) : Span :=
  if b.before a then b else a

end Span

/-- A place in a source file as it is shown to a reader. -/
structure Location where
  file : String
  line : Nat
  column : Nat
  deriving DecidableEq, Repr, Inhabited

namespace Location

/-- Shown for a span that stands in no file. -/
def unknown : Location := ⟨"<unknown>", 0, 0⟩

def text (l : Location) : String :=
  s!"{l.file}:{l.line}:{l.column}"

/-- Locations are ordered by file name, then line, then column. -/
def compare (a b : Location) : Ordering :=
  (Ord.compare a.file b.file).then ((Ord.compare a.line b.line).then (Ord.compare a.column b.column))

end Location

/-- A named text of a design. -/
structure SourceFile where
  name : String
  text : String
  deriving DecidableEq, Repr, Inhabited

namespace SourceFile

/-- The number of bytes of a list of characters. -/
def byteLength (cs : List Char) : Nat :=
  cs.foldr (fun c n => c.utf8Size + n) 0

/-- The offsets just past each line feed of `cs`, where `cs` starts at offset `pos`. -/
def lineStartsFrom (pos : Nat) : List Char → List Nat
  | [] => []
  | c :: cs =>
    let next := pos + c.utf8Size
    if c = '\n' then next :: lineStartsFrom next cs else lineStartsFrom next cs

/-- The offsets at which the lines of the file start, in ascending order. -/
def lineStarts (f : SourceFile) : List Nat :=
  0 :: lineStartsFrom 0 f.text.toList

/-- Offsets, lines and columns are words of thirty-two bits, of which there are this many. -/
def wordCount : Nat := Nat.pow 2 32

/-- Looks for `x` among ascending numbers, from the index `lo` up to, but not including, `hi`: the index
where it stands, or else as an error the one where it would have to be inserted. -/
def search (xs : Array Nat) (x lo hi : Nat) (h : hi ≤ xs.size) : Except Nat Nat :=
  if hlt : lo < hi then
    let mid := (lo + hi) / 2
    have hmid : mid < hi := by omega
    if xs[mid] = x then .ok mid
    else if xs[mid] < x then search xs x (mid + 1) hi h
    else search xs x lo mid (Nat.le_trans (Nat.le_of_lt hmid) h)
  else .error lo
termination_by hi - lo

/-- The index of the line in which a byte offset lies, where the lines start at `starts`. -/
def lineIndex (starts : Array Nat) (offset : Nat) : Nat :=
  match search starts offset 0 starts.size (Nat.le_refl _) with
  | .ok index => index
  | .error index => index - 1

/-- The line and the column of a byte offset, both counted from one. Both are words, so at the greatest
offset the column is zero if no line feed stands before it, and the line is zero if nothing else does. -/
def lineColumn (f : SourceFile) (offset : Nat) : Nat × Nat :=
  let starts := f.lineStarts.toArray
  let line := lineIndex starts offset
  ((line + 1) % wordCount, (offset - starts[line]?.getD 0 + 1) % wordCount)

/-- Splits off the first `n` bytes, if they are whole characters of `cs`. -/
def splitBytes : Nat → List Char → Option (List Char × List Char)
  | 0, cs => some ([], cs)
  | _ + 1, [] => none
  | n + 1, c :: cs =>
    if c.utf8Size ≤ n + 1 then
      (splitBytes (n + 1 - c.utf8Size) cs).map fun (front, rest) => (c :: front, rest)
    else none

/-- The text between two byte offsets, cut to the file; empty if an offset is inside a character. -/
def snippet (f : SourceFile) (start stop : Nat) : String :=
  let cs := f.text.toList
  let stop := min stop (byteLength cs)
  let start := min start stop
  match splitBytes start cs with
  | none => ""
  | some (_, rest) =>
    match splitBytes (stop - start) rest with
    | none => ""
    | some (front, _) => String.ofList front

/-- The characters of `cs` that start before byte `n`, and those that start at it or after. -/
def spanBytes : Nat → List Char → List Char × List Char
  | 0, cs => ([], cs)
  | _ + 1, [] => ([], [])
  | n + 1, c :: cs =>
    let (front, rest) := spanBytes (n + 1 - c.utf8Size) cs
    (c :: front, rest)

/-- The whole line in which a byte offset lies. -/
def lineAt (f : SourceFile) (offset : Nat) : String :=
  let (front, rest) := spanBytes offset f.text.toList
  String.ofList ((front.reverse.takeWhile (· ≠ '\n')).reverse ++ rest.takeWhile (· ≠ '\n'))

end SourceFile

/-- The files of a design in the order in which they were read. -/
structure Sources where
  files : Array SourceFile := #[]
  deriving Inhabited

namespace Sources

def file? (s : Sources) (index : Nat) : Option SourceFile :=
  s.files[index]?

/-- Adds a file; its index is the number of files before it. -/
def add (s : Sources) (name text : String) : Sources :=
  ⟨s.files.push ⟨name, text⟩⟩

/-- Where a span starts. -/
def location (s : Sources) (span : Span) : Location :=
  match s.file? span.file with
  | some f =>
    let (line, column) := f.lineColumn span.start
    ⟨f.name, line, column⟩
  | none => .unknown

/-- The text that a span covers; empty for a span of no file. -/
def snippet (s : Sources) (span : Span) : String :=
  match s.file? span.file with
  | some f => f.snippet span.start span.stop
  | none => ""

end Sources

end HdlLint
