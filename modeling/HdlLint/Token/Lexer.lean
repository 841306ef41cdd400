import HdlLint.Text.Ascii
import HdlLint.Token
import HdlLint.Syntax.Error

/-! # From bytes to tokens

A text is read as bytes. The reader stands at an offset, looks at the byte there and at one or two
behind it, and goes on behind what it has recognized. A byte past the end of the text reads as zero.
Each round takes at least one byte (`lt_stop_tokenAt`), so the reader comes to the end. -/

namespace HdlLint.Lexer

section Bytes
variable (source : ByteArray)

/-- The byte at an offset, and zero past the end. -/
def byteAt (pos : Nat) : UInt8 :=
  if h : pos < source.size then source[pos] else 0

/-- The byte at an offset is that of the character `c`. -/
def isAt (pos : Nat) (c : Char) : Bool :=
  byteAt source pos == c.toUInt8

/-- The text between two offsets, and nothing if they divide a character. -/
def textAt (start stop : Nat) : String :=
  (String.fromUTF8? (source.extract start stop)).getD ""

variable {source}

theorem lt_size_of_byteAt {pos : Nat} (h : byteAt source pos ≠ 0) : pos < source.size := by
  unfold byteAt at h
  split at h
  · assumption
  · exact absurd rfl h

theorem lt_size_of_isAt {pos : Nat} {c : Char} (h : isAt source pos c) (hc : c.toUInt8 ≠ 0) :
    pos < source.size :=
  lt_size_of_byteAt (by rw [eq_of_beq h]; exact hc)

end Bytes

/-- A set of characters of one byte. What reads as zero past the end of a text is not in it. -/
structure CharClass where
  has : Char → Bool
  nul : has '\x00' = false := by rfl

namespace CharClass

def blanks : CharClass := { has := Ascii.isBlank }

def wordRest : CharClass := { has := Ascii.isWordRest }

def digitRest : CharClass := { has := Ascii.isDigitRest }

def basedRest : CharClass := { has := Ascii.isBasedRest }

/-- The byte at an offset is in the class. -/
def isAt (p : CharClass) (source : ByteArray) (pos : Nat) : Bool :=
  p.has (Char.ofUInt8 (byteAt source pos))

variable {p : CharClass} {source : ByteArray} {pos : Nat}

theorem lt_size_of_isAt (h : p.isAt source pos) : pos < source.size := by
  refine lt_size_of_byteAt fun hzero => ?_
  rw [isAt, hzero] at h
  exact absurd h (by rw [show Char.ofUInt8 0 = '\x00' from rfl, p.nul]; decide)

/-- The offset behind the bytes of the class that stand at `pos`. -/
def pass (p : CharClass) (source : ByteArray) (pos : Nat) : Nat :=
  if h : p.isAt source pos then p.pass source (pos + 1) else pos
termination_by source.size - pos
decreasing_by
  have hlt := lt_size_of_isAt h
  omega

theorem le_pass : pos ≤ p.pass source pos := by
  fun_induction pass with
  | case1 pos h ih => omega
  | case2 pos h => exact Nat.le_refl pos

theorem lt_pass (h : p.isAt source pos) : pos < p.pass source pos := by
  rw [pass, dif_pos h]
  exact le_pass

end CharClass

/-! ### Between tokens -/

/-- The end of the line at or behind `pos`. -/
def lineEnd (source : ByteArray) (pos : Nat) : Nat :=
  if h : pos < source.size then
    if source[pos] = '\n'.toUInt8 then pos else lineEnd source (pos + 1)
  else pos

/-- The end of a comment whose text goes on at `pos`, and whether it is closed. -/
def blockEnd (source : ByteArray) (pos : Nat) : Nat × Bool :=
  if source.size ≤ pos then (pos, false)
  else if isAt source pos '*' && isAt source (pos + 1) '/' then (pos + 2, true)
  else blockEnd source (pos + 1)

section
variable {source : ByteArray} {pos : Nat}

theorem le_lineEnd : pos ≤ lineEnd source pos := by
  fun_induction lineEnd with
  | case1 => exact Nat.le_refl _
  | case2 pos h hne ih => omega
  | case3 => exact Nat.le_refl _

theorem lt_lineEnd (h : isAt source pos '-') : pos < lineEnd source pos := by
  have hlt := lt_size_of_isAt h (by decide)
  have hbyte : source[pos] ≠ '\n'.toUInt8 := by
    rw [isAt, byteAt, dif_pos hlt] at h
    rw [eq_of_beq h]
    decide
  rw [lineEnd, dif_pos hlt, if_neg hbyte]
  exact le_lineEnd

theorem le_blockEnd : pos ≤ (blockEnd source pos).1 := by
  fun_induction blockEnd with
  | case1 => exact Nat.le_refl _
  | case2 => exact Nat.le_add_right _ _
  | case3 pos hlt hopen ih => omega

end

/-- Passes over blanks and comments: where the next token starts, and the comments that are never
closed. -/
def skip (file : Nat) (source : ByteArray) (pos : Nat) : Nat × List Diagnostic :=
  let start := CharClass.blanks.pass source pos
  if _h : isAt source start '-' && isAt source (start + 1) '-' then
    skip file source (lineEnd source start)
  else if _h : isAt source start '/' && isAt source (start + 1) '*' then
    let comment := blockEnd source (start + 2)
    let rest := skip file source comment.1
    (rest.1, if comment.2 then rest.2
      else SyntaxError.unterminatedComment.toDiagnostic ⟨file, start, comment.1⟩ :: rest.2)
  else (start, [])
termination_by source.size - pos
decreasing_by
  · have hle : pos ≤ CharClass.blanks.pass source pos := CharClass.le_pass
    have hdash : isAt source (CharClass.blanks.pass source pos) '-' := (Bool.and_eq_true _ _ ▸ _h).1
    have hlt := lt_size_of_isAt hdash (by decide)
    have hend := lt_lineEnd hdash
    omega
  · have hle : pos ≤ CharClass.blanks.pass source pos := CharClass.le_pass
    have hslash : isAt source (CharClass.blanks.pass source pos) '/' := (Bool.and_eq_true _ _ ▸ _h).1
    have hlt := lt_size_of_isAt hslash (by decide)
    have hend : CharClass.blanks.pass source pos + 2 ≤
      (blockEnd source (CharClass.blanks.pass source pos + 2)).1 := le_blockEnd
    omega

theorem le_skip {file : Nat} {source : ByteArray} {pos : Nat} : pos ≤ (skip file source pos).1 := by
  fun_induction skip with
  | case1 pos start h ih =>
    have hle : pos ≤ start := CharClass.le_pass
    have hend : start ≤ lineEnd source start := le_lineEnd
    omega
  | case2 pos start h h' comment rest ih =>
    have hle : pos ≤ start := CharClass.le_pass
    have hstop : start + 2 ≤ comment.1 := le_blockEnd
    show pos ≤ (skip file source comment.1).1
    omega
  | case3 pos start h h' => exact CharClass.le_pass

/-! ### Tokens -/

/-- What is recognized at an offset: the kind of a token, the offset behind it and its fault. -/
structure Lexeme where
  kind : TokenKind
  stop : Nat
  fault : Option SyntaxError := none
  deriving DecidableEq, Repr, Inhabited

/-- A token that is none, for the given reason. -/
def Lexeme.invalid (fault : SyntaxError) (stop : Nat) : Lexeme :=
  { kind := .invalid, stop, fault := some fault }

/-- A string whose text goes on at `pos`. A quote written twice stands for itself. The string ends
with its line, or with a null character, if it is not closed before. -/
def stringAt (source : ByteArray) (kind : TokenKind) (pos : Nat) : Lexeme :=
  if _h : isAt source pos '\x22' then
    if isAt source (pos + 1) '\x22' then stringAt source kind (pos + 2)
    else { kind, stop := pos + 1 }
  else if _h : byteAt source pos = 0 || isAt source pos '\n' then .invalid .unterminatedString pos
  else stringAt source kind (pos + 1)
termination_by source.size - pos
decreasing_by
  · have hlt := lt_size_of_isAt _h (by decide)
    omega
  · have hlt : pos < source.size := lt_size_of_byteAt fun hzero => _h (by simp [hzero])
    omega

/-- A name, a reserved word, or a bit string such as `x"ff"`. -/
def wordAt (source : ByteArray) (pos : Nat) : Lexeme :=
  let stop := CharClass.wordRest.pass source pos
  let word := Ascii.lower (textAt source pos stop)
  if isAt source stop '\x22' && word ∈ ["b", "o", "x", "d"] then
    stringAt source .bitStringLiteral (stop + 1)
  else { kind := (Keyword.ofSpelling? word).elim .identifier .keyword, stop }

/-- The offset behind the digits at `pos`. -/
def digitsEnd (source : ByteArray) (pos : Nat) : Nat :=
  CharClass.digitRest.pass source pos

def isDigitAt (source : ByteArray) (pos : Nat) : Bool :=
  (Char.ofUInt8 (byteAt source pos)).isDigit

/-- A literal that starts with a digit: based if a `#` follows its first digits, else decimal. -/
def numberAt (source : ByteArray) (pos : Nat) : Lexeme :=
  let pos := digitsEnd source pos
  if isAt source pos '#' then
    let pos := CharClass.basedRest.pass source (pos + 1)
    if isAt source pos '#' then { kind := .intLiteral, stop := pos + 1 }
    else .invalid .unterminatedBased pos
  else
    let (kind, pos) :=
      if isAt source pos '.' && isDigitAt source (pos + 1) then
        (.realLiteral, digitsEnd source (pos + 1))
      else (.intLiteral, pos)
    let stop :=
      if (isAt source pos 'e' || isAt source pos 'E') &&
          (isDigitAt source (pos + 1) || isAt source (pos + 1) '+') then
        digitsEnd source (pos + 2)
      else pos
    { kind, stop }

/-- The signs of two characters. -/
def pairSign : Char → Char → Option Symbol
  | ':', '=' => some .varAssign
  | '<', '=' => some .lessEquals
  | '>', '=' => some .greaterEquals
  | '=', '>' => some .arrow
  | '/', '=' => some .slashEquals
  | '*', '*' => some .doubleStar
  | _, _ => none

/-- The signs of one character. -/
def singleSign : Char → Option Symbol
  | '(' => some .leftParen
  | ')' => some .rightParen
  | ',' => some .comma
  | ';' => some .semicolon
  | ':' => some .colon
  | '.' => some .dot
  | '\x27' => some .tick
  | '|' => some .bar
  | '=' => some .equals
  | '<' => some .lessThan
  | '>' => some .greaterThan
  | '+' => some .plus
  | '-' => some .minus
  | '&' => some .ampersand
  | '*' => some .star
  | '/' => some .slash
  | _ => none

/-- The number of bytes of a character, told by its first byte. -/
def utf8Width (b : UInt8) : Nat :=
  if 0xC0 ≤ b && b ≤ 0xDF then 2
  else if 0xE0 ≤ b && b ≤ 0xEF then 3
  else if 0xF0 ≤ b && b ≤ 0xF7 then 4
  else 1

/-- A sign, the longer one where two fit, or a whole character that starts no token. -/
def signAt (source : ByteArray) (pos : Nat) : Lexeme :=
  let b := byteAt source pos
  match pairSign (Char.ofUInt8 b) (Char.ofUInt8 (byteAt source (pos + 1))) with
  | some sign => { kind := .symbol sign, stop := pos + 2 }
  | none =>
    match singleSign (Char.ofUInt8 b) with
    | some sign => { kind := .symbol sign, stop := pos + 1 }
    | none => .invalid .unexpectedCharacter (min (pos + utf8Width b) source.size)

/-- After a name or a closing parenthesis a tick introduces an attribute. -/
def tickIsAttribute : Option TokenKind → Bool
  | some .identifier => true
  | some (.symbol .rightParen) => true
  | _ => false

/-- The token at an offset, where the one before it is of kind `prev`. -/
def tokenAt (source : ByteArray) (prev : Option TokenKind) (pos : Nat) : Lexeme :=
  if isAt source pos '\x27' && !tickIsAttribute prev && isAt source (pos + 2) '\x27' then
    { kind := .charLiteral, stop := pos + 3 }
  else if Ascii.isWordStart (Char.ofUInt8 (byteAt source pos)) then wordAt source pos
  else if isDigitAt source pos then numberAt source pos
  else if isAt source pos '\x22' then stringAt source .stringLiteral (pos + 1)
  else signAt source pos

section
variable {source : ByteArray} {pos : Nat}

theorem le_stop_stringAt {kind : TokenKind} : pos ≤ (stringAt source kind pos).stop := by
  fun_induction stringAt with
  | case1 pos h h' ih => omega
  | case2 pos h h' => exact Nat.le_add_right _ _
  | case3 pos h h' => exact Nat.le_refl _
  | case4 pos h h' ih => omega

theorem lt_stop_wordAt (h : Ascii.isWordStart (Char.ofUInt8 (byteAt source pos))) :
    pos < (wordAt source pos).stop := by
  have hrest : CharClass.wordRest.isAt source pos := by
    simp_all [CharClass.isAt, CharClass.wordRest, Ascii.isWordRest, Ascii.isWordStart, Char.isAlphanum]
  have hpass := CharClass.lt_pass hrest
  unfold wordAt
  dsimp only
  split
  · exact Nat.lt_trans hpass le_stop_stringAt
  · exact hpass

theorem le_digitsEnd : pos ≤ digitsEnd source pos :=
  CharClass.le_pass

theorem lt_stop_numberAt (h : isDigitAt source pos) : pos < (numberAt source pos).stop := by
  have hrest : CharClass.digitRest.isAt source pos := by
    simp_all [CharClass.isAt, CharClass.digitRest, Ascii.isDigitRest, isDigitAt]
  have hpass : pos < digitsEnd source pos := CharClass.lt_pass hrest
  unfold numberAt
  dsimp only
  generalize digitsEnd source pos = mid at hpass ⊢
  split
  · have hbased : mid + 1 ≤ CharClass.basedRest.pass source (mid + 1) := CharClass.le_pass
    split
    · show pos < _ + 1
      omega
    · show pos < CharClass.basedRest.pass source (mid + 1)
      omega
  · have hfraction : ∀ c : Bool, mid ≤
        (if c then (TokenKind.realLiteral, digitsEnd source (mid + 1)) else (.intLiteral, mid)).2 := by
      intro c
      have hle : mid + 1 ≤ digitsEnd source (mid + 1) := le_digitsEnd
      cases c
      · exact Nat.le_refl _
      · exact Nat.le_of_succ_le hle
    have hmid := hfraction (isAt source mid '.' && isDigitAt source (mid + 1))
    generalize (if (isAt source mid '.' && isDigitAt source (mid + 1)) = true then
      (TokenKind.realLiteral, digitsEnd source (mid + 1)) else (.intLiteral, mid)) = r at hmid ⊢
    have hexponent : r.2 + 2 ≤ digitsEnd source (r.2 + 2) := le_digitsEnd
    show pos < if _ then _ else _
    split <;> omega

theorem lt_stop_signAt (h : pos < source.size) : pos < (signAt source pos).stop := by
  have hwidth : 0 < utf8Width (byteAt source pos) := by
    unfold utf8Width
    split
    · decide
    · split
      · decide
      · split <;> decide
  unfold signAt
  dsimp only
  split
  · show pos < pos + 2
    omega
  · split
    · exact Nat.lt_succ_self pos
    · show pos < min _ _
      omega

/-- Every token takes at least one byte. -/
theorem lt_stop_tokenAt (h : pos < source.size) (prev : Option TokenKind) :
    pos < (tokenAt source prev pos).stop := by
  unfold tokenAt
  split
  · show pos < pos + 3
    omega
  · split
    · exact lt_stop_wordAt ‹_›
    · split
      · exact lt_stop_numberAt ‹_›
      · split
        · exact le_stop_stringAt
        · exact lt_stop_signAt h

end

/-- The tokens from an offset on, where the one before it is of kind `prev`, closed by one of kind
`eof`, and what is wrong with the characters. -/
def lexFrom (file : Nat) (source : ByteArray) (prev : Option TokenKind) (pos : Nat) :
    List Token × List Diagnostic :=
  let gap := skip file source pos
  if _h : source.size ≤ gap.1 then ([⟨.eof, "", ⟨file, gap.1, gap.1⟩⟩], gap.2)
  else
    let lexeme := tokenAt source prev gap.1
    let span : Span := ⟨file, gap.1, lexeme.stop⟩
    let rest := lexFrom file source (some lexeme.kind) lexeme.stop
    (⟨lexeme.kind, textAt source gap.1 lexeme.stop, span⟩ :: rest.1,
      gap.2 ++ (lexeme.fault.map (·.toDiagnostic span)).toList ++ rest.2)
termination_by source.size - pos
decreasing_by
  have hskip : pos ≤ (skip file source pos).1 := le_skip
  have hlt : (skip file source pos).1 < source.size := Nat.lt_of_not_le _h
  have hstop := lt_stop_tokenAt hlt prev
  omega

/-- The tokens of a text, closed by one of kind `eof`, and what is wrong with its characters. -/
def lex (file : Nat) (text : String) : List Token × List Diagnostic :=
  lexFrom file text.toUTF8 none 0

end HdlLint.Lexer
