import HdlLint.Proofs.Words

/-!
# Where words end

A word, a number or a string ends where a blank, a comma, a tick or a parenthesis follows, whatever
stands before it (`Solid`). Signs end where they cannot be read as part of a longer one or of a
comment. So a text that is put together from words, with blanks where they are needed, is cut into
these words again (`Splits`).
-/

namespace HdlLint.Lexer
open SourceFile

/-! ### Words alone and in front of more text -/

/-- The kind of the token that is written so. -/
def kindOf (w : String) : TokenKind :=
  match w.toList with
  | [] => .eof
  | c :: cs => (shape none c cs).kind.getD .eof

/-- Behind a token of kind `prev`, the text `w ++ r` is cut between `w` and `r`. -/
def CutsOff (prev : Option TokenKind) (w : String) (r : List Char) : Prop :=
  ∃ c cs, w.toList = c :: cs ∧ shape prev c (cs ++ r) = .token (kindOf w) cs.length

section
variable {prev : Option TokenKind} {w : String} {c : Char} {cs r : List Char} {k : TokenKind}

theorem kindOf_eq (hw : w.toList = c :: cs) (h : shape none c cs = .token k cs.length) :
    kindOf w = k := by
  simp only [kindOf, hw, h]
  rfl

theorem CutsOff.of_shape (hw : w.toList = c :: cs) (halone : shape none c cs = .token k cs.length)
    (h : shape prev c (cs ++ r) = .token k cs.length) : CutsOff prev w r :=
  ⟨c, cs, hw, by rw [h, kindOf_eq hw halone]⟩

theorem isCharLiteral_of_ne (h : c ≠ '\x27') : isCharLiteral c cs = false := by
  unfold isCharLiteral
  split
  · simp [h]
  · rfl

theorem shape_eq (hblank : Ascii.isBlank c = false) (hcomment : commentShape? c cs = none)
    (htick : c ≠ '\x27') : shape prev c cs =
      if Ascii.isWordStart c then wordShape c cs
      else if c.isDigit then numberShape cs
      else if c = '\x22' then stringShape .stringLiteral 0 cs
      else signShape c cs := by
  simp [shape, hblank, hcomment, tokenShape, isCharLiteral_of_ne htick]

/-- The same for the first character of a word, number or string, which starts no blank or comment. -/
theorem shape_eq_of_class {p : Char → Bool} (hc : p c)
    (hp : [' ', '\t', '\n', '\x0c', '\r', '-', '/', '\x27'].all (!p ·)) : shape prev c cs =
      if Ascii.isWordStart c then wordShape c cs
      else if c.isDigit then numberShape cs
      else if c = '\x22' then stringShape .stringLiteral 0 cs
      else signShape c cs := by
  have hne : c ∉ [' ', '\t', '\n', '\x0c', '\r', '-', '/', '\x27'] := by
    intro hmem
    have hfalse := List.all_eq_true.1 hp c hmem
    rw [hc] at hfalse
    cases hfalse
  simp only [List.mem_cons, List.not_mem_nil, or_false, not_or] at hne
  obtain ⟨h1, h2, h3, h4, h5, hdash, hslash, htick⟩ := hne
  refine shape_eq ?_ ?_ htick
  · simp [Ascii.isBlank, h1, h2, h3, h4, h5]
  · cases cs with
    | nil => rfl
    | cons d cs => simp [commentShape?, hdash, hslash]

/-- The characters that may follow a word, a number or a string in printed text. -/
def stopChars : List Char := [' ', ')', ',', '(', '\x27']

/-- The text is over, or goes on with one of these characters. -/
def Stops (r : List Char) : Prop := ∀ d ∈ r.head?, d ∈ stopChars

theorem stops_nil : Stops [] := nofun

theorem stops_cons {d : Char} (h : d ∈ stopChars) : Stops (d :: r) := by
  rintro _ ⟨⟩
  exact h

/-- The texts of which blanks and marks are made. -/
theorem stops_mark {w : String} (hw : w ∈ [" ", "(", ")", ", ", "'"]) : Stops (w.toList ++ r) := by
  simp only [List.mem_cons, List.not_mem_nil, or_false] at hw
  rcases hw with rfl | rfl | rfl | rfl | rfl
  all_goals exact stops_cons (by decide)

theorem Stops.ne {d e : Char} (h : Stops (d :: r)) (he : e ∉ stopChars) : d ≠ e :=
  fun hd => he (hd ▸ h d rfl)

theorem takeWhile_append_of_stops {p : Char → Bool} (hp : stopChars.all (!p ·)) (hcs : ∀ d ∈ cs, p d)
    (hr : Stops r) : (cs ++ r).takeWhile p = cs := by
  rw [List.takeWhile_append_of_pos hcs]
  cases r with
  | nil => simp
  | cons d r =>
    have hd : p d = false := by simpa using List.all_eq_true.1 hp d (hr d rfl)
    simp [hd]

/-- A token whatever stands before it, as long as the text behind it `Stops`. -/
def Solid (k : TokenKind) (w : List Char) : Prop :=
  ∃ c cs, w = c :: cs ∧ ∀ prev r, Stops r → shape prev c (cs ++ r) = .token k cs.length

theorem Solid.kindOf_eq (h : Solid k w.toList) : kindOf w = k := by
  obtain ⟨c, cs, hw, hshape⟩ := h
  have halone := hshape none [] stops_nil
  rw [List.append_nil] at halone
  exact Lexer.kindOf_eq hw halone

theorem Solid.cutsOff (h : Solid k w.toList) (hr : Stops r) : CutsOff prev w r := by
  have hk := h.kindOf_eq
  obtain ⟨c, cs, hw, hshape⟩ := h
  exact ⟨c, cs, hw, by rw [hk, hshape prev r hr]⟩

theorem shape_of_isWordStart (hc : Ascii.isWordStart c) : shape prev c cs = wordShape c cs := by
  rw [shape_eq_of_class hc rfl, if_pos hc]

theorem solid_word {w : List Char} (hw : isWord w) : Solid (wordKind w) w := by
  rcases w with _ | ⟨c, cs⟩
  · cases hw
  · obtain ⟨hc, hcs⟩ : Ascii.isWordStart c ∧ ∀ d ∈ cs, Ascii.isWordRest d := by simpa [isWord] using hw
    refine ⟨c, cs, rfl, fun prev r hr => ?_⟩
    have htake := takeWhile_append_of_stops rfl hcs hr
    rw [shape_of_isWordStart hc]
    simp only [wordShape, htake, List.take_left, List.drop_left]
    split
    · exact absurd (hr '\x22' rfl) (by decide)
    · rfl

theorem solid_string {w : List Char} (hw : IsString w) :
    ∃ k, (k = .stringLiteral ∨ k = .bitStringLiteral) ∧ Solid k w := by
  have hquote : ∀ {r}, Stops r → r.head? ≠ some '\x22' := fun hr h => absurd (hr '\x22' h) (by decide)
  cases hw with
  | @plain body hbody =>
    refine ⟨_, .inl rfl, _, _, rfl, fun prev r hr => ?_⟩
    have hshape : shape prev '\x22' (body ++ r) = stringShape .stringLiteral 0 (body ++ r) :=
      shape_eq_of_class (p := (· = '\x22')) rfl rfl
    rw [hshape]
    simp [stringShape, hbody r (hquote hr)]
  | @bits c body hstart hbase hbody =>
    refine ⟨_, .inr rfl, _, _, rfl, fun prev r hr => ?_⟩
    rw [shape_of_isWordStart hstart]
    have htake : ('\x22' :: (body ++ r)).takeWhile Ascii.isWordRest = [] := rfl
    simp only [List.cons_append, wordShape, htake, List.length_nil, List.take_zero, List.drop_zero,
      if_pos hbase]
    simp [stringShape, hbody r (hquote hr), Nat.add_comm]

theorem fraction_of_stops (hr : Stops r) : fraction r = 0 := by
  unfold fraction
  split
  · exact absurd rfl (hr.ne (by decide))
  · rfl

theorem exponent_of_stops (hr : Stops r) : exponent r = 0 := by
  unfold exponent
  split
  · have hlower : 'e' ∉ stopChars := by decide
    have hupper : 'E' ∉ stopChars := by decide
    simp [hr.ne hlower, hr.ne hupper]
  · rfl

theorem not_isWordStart_of_isDigit (h : c.isDigit) : Ascii.isWordStart c = false := by
  have hdigit : 48 ≤ c.toNat ∧ c.toNat ≤ 57 := Char.isDigit_iff_toNat.1 h
  rw [← Bool.not_eq_true, Ascii.isWordStart_iff, Ascii.isUpper_iff, Ascii.isLower_iff]
  omega

theorem solid_number {w : List Char} (hne : w ≠ []) (hw : ∀ d ∈ w, d.isDigit) : Solid .intLiteral w := by
  rcases w with _ | ⟨c, cs⟩
  · exact absurd rfl hne
  · obtain ⟨hc, hcs⟩ := List.forall_mem_cons.1 hw
    refine ⟨c, cs, rfl, fun prev r hr => ?_⟩
    have hcs' : ∀ d ∈ cs, Ascii.isDigitRest d := fun d hd => by simp [Ascii.isDigitRest, hcs d hd]
    have htake := takeWhile_append_of_stops rfl hcs' hr
    rw [shape_eq_of_class hc rfl, not_isWordStart_of_isDigit hc, if_neg Bool.false_ne_true,
      if_pos hc]
    simp only [numberShape, htake, List.drop_left]
    split
    · exact absurd rfl (hr.ne (by decide))
    · simp [fraction_of_stops hr, exponent_of_stops hr]

/-! ### Signs and characters -/

theorem shape_char (hc : c.utf8Size = 1) (hprev : tickIsAttribute prev = false) (r : List Char) :
    shape prev '\x27' (c :: '\x27' :: r) = .token .charLiteral 2 := by
  simp [shape, Ascii.isBlank, commentShape?, tokenShape, isCharLiteral, hc, hprev]

theorem toList_char (c : Char) : ("'" ++ String.singleton c ++ "'").toList = ['\x27', c, '\x27'] := by
  simp

theorem kindOf_char (hc : c.utf8Size = 1) : kindOf ("'" ++ String.singleton c ++ "'") = .charLiteral :=
  kindOf_eq (toList_char c) (shape_char hc rfl [])

theorem cutsOff_char (hc : c.utf8Size = 1) (hprev : tickIsAttribute prev = false) :
    CutsOff prev ("'" ++ String.singleton c ++ "'") r :=
  .of_shape (toList_char c) (shape_char hc rfl []) (shape_char hc hprev r)

theorem cutsOff_tick (hprev : tickIsAttribute prev) : CutsOff prev "'" r := by
  have htoken : tokenShape prev '\x27' r = signShape '\x27' r := by
    rw [tokenShape, hprev, Bool.not_true, Bool.and_false]
    rfl
  refine .of_shape (k := .symbol .tick) rfl rfl ?_
  show shape prev '\x27' r = _
  cases r with
  | nil => exact htoken
  | cons d r => exact htoken

/-- The characters that start signs, but for the tick. -/
def isSignStart (c : Char) : Bool :=
  !Ascii.isBlank c && c != '\x27' && !Ascii.isWordStart c && !c.isDigit && c != '\x22'

/-- A sign that is not a tick. -/
def isSign : List Char → Bool
  | [c] => isSignStart c && (singleSign c).isSome
  | [c, d] => isSignStart c && (pairSign c d).isSome
  | _ => false

theorem shape_of_isSignStart (h : isSignStart c) (hcomment : commentShape? c cs = none) :
    shape prev c cs = signShape c cs := by
  obtain ⟨⟨⟨⟨hblank, htick⟩, hword⟩, hdigit⟩, hquote⟩ :
      (((Ascii.isBlank c = false ∧ c ≠ '\x27') ∧ Ascii.isWordStart c = false) ∧ c.isDigit = false) ∧
        c ≠ '\x22' := by
    simpa [isSignStart] using h
  simp [shape_eq hblank hcomment htick, hword, hdigit, hquote]

theorem cutsOff_single (hw : w.toList = [c]) (hsign : isSign [c])
    (hpair : r.head?.bind (pairSign c) = none) (hcomment : commentShape? c r = none) :
    CutsOff prev w r := by
  obtain ⟨hstart, s, hs⟩ : isSignStart c ∧ ∃ s, singleSign c = some s := by
    simpa [isSign, Option.isSome_iff_exists] using hsign
  refine .of_shape (k := .symbol s) hw ?_ ?_
  · rw [shape_of_isSignStart hstart rfl]
    simp [signShape, hs]
  · rw [List.nil_append, shape_of_isSignStart hstart hcomment]
    simp [signShape, hpair, hs]

theorem cutsOff_pair {d : Char} (hw : w.toList = [c, d]) (hsign : isSign [c, d]) : CutsOff prev w r := by
  obtain ⟨hstart, s, hs⟩ : isSignStart c ∧ ∃ s, pairSign c d = some s := by
    simpa [isSign, Option.isSome_iff_exists] using hsign
  have hcomment : ∀ r, commentShape? c (d :: r) = none := by
    intro r
    have hline : ¬ (c = '-' ∧ d = '-') := by rintro ⟨rfl, rfl⟩; cases hs
    have hblock : ¬ (c = '/' ∧ d = '*') := by rintro ⟨rfl, rfl⟩; cases hs
    simp [commentShape?, hline, hblock]
  have hshape : ∀ {prev} r, shape prev c (d :: r) = .token (.symbol s) 1 := by
    intro prev r
    rw [shape_of_isSignStart hstart (hcomment r)]
    simp [signShape, hs]
  exact .of_shape hw (hshape []) (hshape r)

theorem cutsOff_sign (hw : isSign w.toList) : CutsOff prev w (' ' :: r) := by
  rcases hcs : w.toList with _ | ⟨c, _ | ⟨d, _ | ⟨e, cs⟩⟩⟩
  · rw [hcs] at hw
    cases hw
  · refine cutsOff_single hcs (hcs ▸ hw) ?_ ?_
    · simp [pairSign]
    · simp [commentShape?]
  · exact cutsOff_pair hcs (hcs ▸ hw)
  · rw [hcs] at hw
    cases hw

/-- Parentheses and commas, whatever follows. -/
theorem cutsOff_mark (hw : w ∈ ["(", ")", ","]) : CutsOff prev w r := by
  have hnext : ∀ c ∈ ['(', ')', ','], r.head?.bind (pairSign c) = none ∧ commentShape? c r = none := by
    rcases r with _ | ⟨d, r⟩
    · simp [commentShape?]
    · simp [pairSign, commentShape?]
  simp only [List.mem_cons, List.not_mem_nil, or_false] at hw
  rcases hw with rfl | rfl | rfl
  · exact cutsOff_single rfl rfl (hnext '(' (by decide)).1 (hnext '(' (by decide)).2
  · exact cutsOff_single rfl rfl (hnext ')' (by decide)).1 (hnext ')' (by decide)).2
  · exact cutsOff_single rfl rfl (hnext ',' (by decide)).1 (hnext ',' (by decide)).2

/-- A sign in front of its operand, which starts with no dash. -/
theorem cutsOff_leading (hw : w ∈ ["-", "+"]) (hr : r.head? ≠ some '-') : CutsOff prev w r := by
  have hnext : ∀ c ∈ ['-', '+'], r.head?.bind (pairSign c) = none ∧ commentShape? c r = none := by
    rcases r with _ | ⟨d, r⟩
    · simp [commentShape?]
    · have hd : d ≠ '-' := fun hd => hr (congrArg some hd)
      simp [pairSign, commentShape?, hd]
  simp only [List.mem_cons, List.not_mem_nil, or_false] at hw
  rcases hw with rfl | rfl
  · exact cutsOff_single rfl rfl (hnext '-' (by decide)).1 (hnext '-' (by decide)).2
  · exact cutsOff_single rfl rfl (hnext '+' (by decide)).1 (hnext '+' (by decide)).2

end

/-! ### Texts of several words -/

/-- The kind of the last word, or `prev` if there is none. -/
def after (prev : Option TokenKind) (ws : List String) : Option TokenKind :=
  ws.foldl (fun _ w => some (kindOf w)) prev

@[simp] theorem after_nil (prev : Option TokenKind) : after prev [] = prev := rfl

@[simp] theorem after_cons (prev : Option TokenKind) (w : String) (ws : List String) :
    after prev (w :: ws) = after (some (kindOf w)) ws := rfl

@[simp] theorem after_append (prev : Option TokenKind) (ws ws' : List String) :
    after prev (ws ++ ws') = after (after prev ws) ws' :=
  List.foldl_append

/-- The kind and text of the token that a piece makes. -/
def Piece.mark? (p : Piece) : Option (TokenKind × String) :=
  p.kind.map fun k => (k, String.ofList p.text)

/-- In front of `r` the text is cut, without a fault, into the words and blanks. -/
def Splits (prev : Option TokenKind) (text r : List Char) (ws : List String) : Prop :=
  ∀ pos, ∃ ps, cut prev pos 0 (text ++ r) = ps ++ cut (after prev ws) (pos + byteLength text) 0 r ∧
    (∀ p ∈ ps, p.fault = none) ∧ ps.filterMap Piece.mark? = ws.map fun w => (kindOf w, w)

namespace Splits
variable {prev : Option TokenKind} {text text' r : List Char} {ws ws' : List String} {w : String}

theorem append (h : Splits prev text (text' ++ r) ws) (h' : Splits (after prev ws) text' r ws') :
    Splits prev (text ++ text') r (ws ++ ws') := by
  intro pos
  obtain ⟨ps, hcut, hfault, hmark⟩ := h pos
  obtain ⟨ps', hcut', hfault', hmark'⟩ := h' (pos + byteLength text)
  refine ⟨ps ++ ps', ?_, ?_, ?_⟩
  · rw [List.append_assoc, hcut, hcut', after_append, byteLength_append, Nat.add_assoc,
      List.append_assoc]
  · exact fun p hp => (List.mem_append.1 hp).elim (hfault p) (hfault' p)
  · rw [List.filterMap_append, hmark, hmark', List.map_append]

theorem cast (h : Splits prev text r ws) (hws : ws = ws') : Splits prev text r ws' := hws ▸ h

theorem nil : Splits prev [] r [] := fun pos => ⟨[], by simp, List.forall_mem_nil _, rfl⟩

theorem blank : Splits prev " ".toList r [] := by
  intro pos
  refine ⟨[⟨none, [' '], pos, none⟩], ?_, ?_, rfl⟩
  · show cut prev pos 0 (' ' :: r) = _
    rw [cut_cons]
    rfl
  · rintro p hp
    rw [List.mem_singleton.1 hp]

theorem word (h : CutsOff prev w r) : Splits prev w.toList r [w] := by
  obtain ⟨c, cs, hw, hshape⟩ := h
  intro pos
  refine ⟨[⟨some (kindOf w), c :: cs, pos, none⟩], ?_, ?_, ?_⟩
  · rw [hw, List.cons_append, cut_cons, hshape]
    simp [Shape.token]
  · rintro p hp
    rw [List.mem_singleton.1 hp]
  · simp [Piece.mark?, ← hw]

theorem mark (hw : w ∈ ["(", ")", ","]) : Splits prev w.toList r [w] := word (cutsOff_mark hw)

end Splits

end HdlLint.Lexer
