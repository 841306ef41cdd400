import Mathlib.Tactic.ByContra
import HdlLint.Token.Lexer

/-!
# The pieces of a text

The bytes of a text belong to characters, and what the reader of bytes recognizes are stretches of whole
characters. A text is cut here into such pieces: tokens, and the gaps between them (blanks and comments).
Each piece is told by its first character and the characters after it. That the reader of bytes finds these
pieces and no others is shown in `HdlLint.Proofs.ByteWalk`.
-/

namespace HdlLint.SourceFile

@[simp] theorem byteLength_nil : byteLength [] = 0 := rfl

@[simp] theorem byteLength_cons (c : Char) (cs : List Char) :
    byteLength (c :: cs) = c.utf8Size + byteLength cs := rfl

@[simp] theorem byteLength_append (a b : List Char) :
    byteLength (a ++ b) = byteLength a + byteLength b := by
  induction a with
  | nil => simp
  | cons c cs ih => simp [ih, Nat.add_assoc]

theorem byteLength_pos {cs : List Char} (h : cs ≠ []) : 0 < byteLength cs := by
  obtain ⟨c, rest, rfl⟩ := List.exists_cons_of_ne_nil h
  have hc : 0 < c.utf8Size := c.utf8Size_pos
  simp only [byteLength_cons]
  omega

/-- A byte offset divides a text in one way only. -/
theorem append_inj_of_byteLength {a b a' b' : List Char} (h : a ++ b = a' ++ b')
    (hlen : byteLength a = byteLength a') : a = a' ∧ b = b' := by
  induction a generalizing a' with
  | nil =>
    have ha' : a' = [] := by
      by_contra hne
      have hpos := byteLength_pos hne
      simp only [byteLength_nil] at hlen
      omega
    subst ha'
    exact ⟨rfl, h⟩
  | cons c cs ih =>
    cases a' with
    | nil =>
      have hpos := byteLength_pos (List.cons_ne_nil c cs)
      simp only [byteLength_nil] at hlen
      omega
    | cons d ds =>
      obtain ⟨rfl, htail⟩ := List.cons.inj h
      simp only [byteLength_cons] at hlen
      obtain ⟨rfl, hb⟩ := ih htail (by omega)
      exact ⟨rfl, hb⟩

end HdlLint.SourceFile

namespace HdlLint.Lexer
open SourceFile (byteLength byteLength_cons byteLength_append)

/-- A stretch of text: a token of some kind, or a gap. -/
structure Shape where
  /-- `none` for a gap. -/
  kind : Option TokenKind
  /-- How many characters belong to it besides its first one. -/
  more : Nat
  fault : Option SyntaxError := none
  deriving DecidableEq, Repr, Inhabited

/-- A gap of blanks or a comment. -/
def Shape.gap (more : Nat) : Shape := { kind := none, more }

def Shape.token (kind : TokenKind) (more : Nat) : Shape := { kind := some kind, more }

/-- A token that is none, for the given reason. -/
def Shape.invalid (fault : SyntaxError) (more : Nat) : Shape :=
  { kind := some .invalid, more, fault := some fault }

/-- The length of a block comment after its two opening characters, and whether it is closed. -/
def blockComment : List Char → Nat × Bool
  | [] => (0, false)
  | '*' :: '/' :: _ => (2, true)
  | _ :: cs =>
    let (n, closed) := blockComment cs
    (n + 1, closed)

/-- The length of a string after its opening quote, and whether it is closed on its line. A quote
written twice stands for itself, and a null character ends the string like a line feed. -/
def stringBody : List Char → Nat × Bool
  | [] => (0, false)
  | '\x22' :: '\x22' :: cs =>
    let (n, closed) := stringBody cs
    (n + 2, closed)
  | c :: cs =>
    if c = '\x22' then (1, true)
    else if c = '\n' || c = '\x00' then (0, false)
    else
      let (n, closed) := stringBody cs
      (n + 1, closed)

/-- A string literal whose body starts `before` characters after the first one. -/
def stringShape (kind : TokenKind) (before : Nat) (body : List Char) : Shape :=
  let (n, closed) := stringBody body
  if closed then .token kind (before + n) else .invalid .unterminatedString (before + n)

/-- A name, a reserved word, or a bit string such as `x"ff"`. -/
def wordShape (c : Char) (cs : List Char) : Shape :=
  let n := (cs.takeWhile Ascii.isWordRest).length
  let word := Ascii.lower (String.ofList (c :: cs.take n))
  match cs.drop n with
  | '\x22' :: body =>
    if word ∈ ["b", "o", "x", "d"] then stringShape .bitStringLiteral (n + 1) body
    else .token ((Keyword.ofSpelling? word).elim .identifier .keyword) n
  | _ => .token ((Keyword.ofSpelling? word).elim .identifier .keyword) n

/-- The length of the exponent, if one follows: an `e`, a digit or a plus sign, and more digits. -/
def exponent : List Char → Nat
  | e :: d :: cs =>
    if (e = 'e' || e = 'E') && (d.isDigit || d = '+') then 2 + (cs.takeWhile Ascii.isDigitRest).length
    else 0
  | _ => 0

/-- The length of the fraction, if one follows: a point, a digit, and more digits. -/
def fraction : List Char → Nat
  | '.' :: d :: cs => if d.isDigit then 2 + (cs.takeWhile Ascii.isDigitRest).length else 0
  | _ => 0

/-- A literal that starts with a digit: based if a `#` follows its first digits, else decimal. -/
def numberShape (cs : List Char) : Shape :=
  let n := (cs.takeWhile Ascii.isDigitRest).length
  match cs.drop n with
  | '#' :: rest =>
    let d := (rest.takeWhile Ascii.isBasedRest).length
    match rest.drop d with
    | '#' :: _ => .token .intLiteral (n + 1 + d + 1)
    | _ => .invalid .unterminatedBased (n + 1 + d)
  | rest =>
    let f := fraction rest
    let e := exponent (rest.drop f)
    .token (if f = 0 then .intLiteral else .realLiteral) (n + f + e)

/-- A sign, the longer one where two fit, or a character that starts no token. -/
def signShape (c : Char) (cs : List Char) : Shape :=
  match cs.head?.bind (pairSign c) with
  | some sign => .token (.symbol sign) 1
  | none =>
    match singleSign c with
    | some sign => .token (.symbol sign) 0
    | none => .invalid .unexpectedCharacter 0

/-- A tick and one more character of a single byte and another tick. -/
def isCharLiteral (c : Char) : List Char → Bool
  | d :: e :: _ => c = '\x27' && d.utf8Size = 1 && e = '\x27'
  | _ => false

/-- The token that starts with `c` after a token of kind `prev`. -/
def tokenShape (prev : Option TokenKind) (c : Char) (cs : List Char) : Shape :=
  if isCharLiteral c cs && !tickIsAttribute prev then .token .charLiteral 2
  else if Ascii.isWordStart c then wordShape c cs
  else if c.isDigit then numberShape cs
  else if c = '\x22' then stringShape .stringLiteral 0 cs
  else signShape c cs

/-- The comment that starts with `c`, if one does. -/
def commentShape? (c : Char) : List Char → Option Shape
  | d :: cs =>
    if c = '-' && d = '-' then some (.gap (1 + (cs.takeWhile (· ≠ '\n')).length))
    else if c = '/' && d = '*' then
      let (n, closed) := blockComment cs
      some { kind := none, more := 1 + n, fault := if closed then none else some .unterminatedComment }
    else none
  | [] => none

/-- The piece that starts with `c` after a token of kind `prev`. -/
def shape (prev : Option TokenKind) (c : Char) (cs : List Char) : Shape :=
  if Ascii.isBlank c then .gap 0
  else (commentShape? c cs).getD (tokenShape prev c cs)

/-- A piece of a text, with the offset of its first byte. -/
structure Piece where
  kind : Option TokenKind
  text : List Char
  start : Nat
  fault : Option SyntaxError
  deriving DecidableEq, Repr, Inhabited

/-- Cuts up a text. The first `skip` characters belong to a piece that was already cut off. -/
def cut (prev : Option TokenKind) (pos skip : Nat) : List Char → List Piece
  | [] => []
  | c :: cs =>
    match skip with
    | k + 1 => cut prev (pos + c.utf8Size) k cs
    | 0 =>
      let s := shape prev c cs
      ⟨s.kind, c :: cs.take s.more, pos, s.fault⟩ ::
        cut (s.kind <|> prev) (pos + c.utf8Size) s.more cs

/-- The pieces of a text from its start to its end. -/
def pieces (text : String) : List Piece :=
  cut none 0 0 text.toList

namespace Piece

/-- The bytes of the piece. -/
def span (file : Nat) (p : Piece) : Span :=
  ⟨file, p.start, p.start + SourceFile.byteLength p.text⟩

def token? (file : Nat) (p : Piece) : Option Token :=
  p.kind.map fun kind => ⟨kind, String.ofList p.text, p.span file⟩

def diagnostic? (file : Nat) (p : Piece) : Option Diagnostic :=
  p.fault.map fun fault => fault.toDiagnostic (p.span file)

end Piece

theorem drop_length_takeWhile (p : Char → Bool) (cs : List Char) :
    cs.drop (cs.takeWhile p).length = cs.dropWhile p := by
  have h : (cs.takeWhile p ++ cs.dropWhile p).drop (cs.takeWhile p).length = cs.dropWhile p :=
    List.drop_left
  rwa [List.takeWhile_append_dropWhile] at h

theorem take_length_takeWhile (p : Char → Bool) (cs : List Char) :
    cs.take (cs.takeWhile p).length = cs.takeWhile p :=
  (List.prefix_iff_eq_take.1 (List.takeWhile_prefix p)).symm

/-- The token that closes every text. -/
def eof (file : Nat) (text : String) : Token :=
  let n := SourceFile.byteLength text.toList
  ⟨.eof, "", ⟨file, n, n⟩⟩

theorem cut_skip (prev : Option TokenKind) (pos k : Nat) (cs : List Char) :
    cut prev pos k cs = cut prev (pos + byteLength (cs.take k)) 0 (cs.drop k) := by
  induction cs generalizing pos k with
  | nil => simp [cut]
  | cons c cs ih =>
    cases k with
    | zero => simp
    | succ k => rw [cut, ih]; simp [Nat.add_assoc]

/-- The first piece of a text, and the pieces of the text behind it. -/
theorem cut_cons (prev : Option TokenKind) (pos : Nat) (c : Char) (cs : List Char) :
    cut prev pos 0 (c :: cs) =
      ⟨(shape prev c cs).kind, c :: cs.take (shape prev c cs).more, pos, (shape prev c cs).fault⟩ ::
        cut ((shape prev c cs).kind <|> prev)
          (pos + byteLength (c :: cs.take (shape prev c cs).more)) 0
          (cs.drop (shape prev c cs).more) := by
  rw [cut, cut_skip]
  simp [Nat.add_assoc]

end HdlLint.Lexer
