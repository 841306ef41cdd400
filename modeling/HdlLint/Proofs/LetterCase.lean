import Mathlib.Data.List.Forall2
import HdlLint.Proofs.Words

/-!
# The case of letters does not matter to the lexer

A text is cut into the same pieces whatever the case of its letters: every class of characters has both
cases of a letter or none (`shape_toLower`), and a letter has as many bytes in either case. So two texts
that differ only in the case of letters have tokens of the same kinds at the same places. Their texts
differ only in case, and those of literals not at all if their letters were kept (`tokens_alike`).
-/

namespace HdlLint

/-! ### Classes of characters -/

namespace Ascii

theorem toNat_toLower {c : Char} (h : c.isUpper) : c.toLower.toNat = c.toNat + 32 := by
  have hlower : c.toLower.toNat = (c.toNat + 32) % 4294967296 :=
    (congrArg Char.toNat (dif_pos (of_decide_eq_true h))).trans (UInt32.toNat_add _ _)
  have hupper := isUpper_iff.1 h
  omega

/-- What does not tell the two cases of a letter apart. -/
theorem apply_toLower {α : Type} {f : Char → α} (h : ∀ c : Char, c.isUpper → f c.toLower = f c) (c : Char) :
    f c.toLower = f c := by
  cases hc : c.isUpper with
  | false => rw [toLower_of_not_isUpper hc]
  | true => exact h c hc

theorem toLower_eq_iff {c x : Char} (hx : x.isAlpha = false) : c.toLower = x ↔ c = x := by
  have hcase : ∀ d : Char, d.isAlpha → d ≠ x := by
    rintro d hd rfl
    rw [hx] at hd
    cases hd
  refine iff_of_eq (apply_toLower (f := (· = x)) (fun c hc => propext ?_) c)
  have hlower := hcase c.toLower (isWordStart_iff.2 (.inr (isLower_toLower hc)))
  have hupper := hcase c (isWordStart_iff.2 (.inl hc))
  exact iff_of_false hlower hupper

theorem isDigit_iff {c : Char} : c.isDigit ↔ 48 ≤ c.toNat ∧ c.toNat ≤ 57 := by
  have hdef : c.isDigit = (decide (c.val ≥ '0'.val) && decide (c.val ≤ '9'.val)) := rfl
  simp [hdef, UInt32.le_iff_toNat_le]

theorem isDigit_toLower (c : Char) : c.toLower.isDigit = c.isDigit := by
  refine apply_toLower (fun c hc => ?_) c
  have hupper := isUpper_iff.1 hc
  have hlower := toNat_toLower hc
  rw [Bool.eq_iff_iff, isDigit_iff, isDigit_iff]
  omega

theorem isAlpha_toLower (c : Char) : c.toLower.isAlpha = c.isAlpha := by
  refine apply_toLower (fun c hc => ?_) c
  have hlower : c.toLower.isAlpha := isWordStart_iff.2 (.inr (isLower_toLower hc))
  have hupper : c.isAlpha := isWordStart_iff.2 (.inl hc)
  rw [hlower, hupper]

theorem toLower_of_not_isAlpha {c : Char} (h : c.isAlpha = false) : c.toLower = c :=
  toLower_of_not_isUpper (Bool.or_eq_false_iff.1 h).1

theorem beq_toLower {c x : Char} (hx : x.isAlpha = false) : (c.toLower == x) = (c == x) := by
  rw [Bool.eq_iff_iff, beq_iff_eq, beq_iff_eq, toLower_eq_iff hx]

theorem isBlank_toLower (c : Char) : isBlank c.toLower = isBlank c := by
  simp only [isBlank, beq_toLower (c := c) (x := ' ') rfl, beq_toLower (c := c) (x := '\t') rfl,
    beq_toLower (c := c) (x := '\n') rfl, beq_toLower (c := c) (x := '\x0c') rfl,
    beq_toLower (c := c) (x := '\r') rfl]

theorem isWordRest_toLower_eq (c : Char) : isWordRest c.toLower = isWordRest c := by
  have hdef : ∀ d : Char, isWordRest d = (d.isAlpha || d.isDigit || d == '_') := fun _ => rfl
  rw [hdef, hdef, isAlpha_toLower, isDigit_toLower, beq_toLower rfl]

theorem isDigitRest_toLower (c : Char) : isDigitRest c.toLower = isDigitRest c := by
  rw [isDigitRest, isDigitRest, isDigit_toLower, beq_toLower rfl]

theorem isExponentMark_toLower (c : Char) :
    (c.toLower = 'e' || c.toLower = 'E') = (c = 'e' || c = 'E') := by
  refine apply_toLower (f := fun c => decide (c = 'e') || decide (c = 'E')) (fun c hc => ?_) c
  have hupper := isUpper_iff.1 hc
  have hnumber : 'e'.toNat = 101 ∧ 'E'.toNat = 69 := ⟨rfl, rfl⟩
  rw [Bool.eq_iff_iff]
  simp only [Bool.or_eq_true, decide_eq_true_eq, ← Char.toNat_inj, toNat_toLower hc, hnumber]
  omega

theorem digitValue_toLower (c : Char) : digitValue c.toLower = digitValue c := by
  refine apply_toLower (fun c hc => ?_) c
  have hupper := isUpper_iff.1 hc
  have hlower := toNat_toLower hc
  have hle : ∀ a b : Char, a ≤ b ↔ a.toNat ≤ b.toNat := fun _ _ => UInt32.le_iff_toNat_le
  have hdigit : c.isDigit = false := by
    rw [← Bool.not_eq_true, isDigit_iff]
    omega
  have hsmall : 'a' ≤ c.toLower ∧ c.toLower ≤ 'f' ↔ 'A' ≤ c ∧ c ≤ 'F' := by
    rw [hle, hle, hle, hle, hlower]
    exact and_congr (Nat.add_le_add_iff_right (n := 32)) (Nat.add_le_add_iff_right (n := 32))
  have hnot : ¬ ('a' ≤ c ∧ c ≤ 'f') := by
    rintro ⟨h, -⟩
    have hle : 97 ≤ c.toNat := (hle _ _).1 h
    omega
  have hnot' : ¬ ('A' ≤ c.toLower ∧ c.toLower ≤ 'F') := by
    rintro ⟨-, h⟩
    have hle : c.toNat + 32 ≤ 70 := hlower ▸ (hle _ _).1 h
    omega
  have hvalue : c.toLower.toNat - 'a'.toNat + 10 = c.toNat - 'A'.toNat + 10 :=
    congrArg (· + 10) (hlower ▸ Nat.add_sub_add_right c.toNat 32 65)
  rw [digitValue, digitValue, isDigit_toLower, hdigit, if_neg Bool.false_ne_true, if_neg Bool.false_ne_true,
    if_neg hnot, if_neg hnot', hvalue]
  simp only [hsmall]

theorem utf8Size_toLower (c : Char) : c.toLower.utf8Size = c.utf8Size := by
  refine apply_toLower (fun c hc => ?_) c
  have hupper := isUpper_iff.1 hc
  have hlower := toNat_toLower hc
  have hone : ∀ d : Char, d.toNat ≤ 127 → d.utf8Size = 1 := fun d hd =>
    if_pos (show d.val ≤ 127 from UInt32.le_iff_toNat_le.2 hd)
  rw [hone c (by omega), hone c.toLower (by omega)]

end Ascii

/-! ### Tokens that are alike -/

/-- Literals that are taken as they were written. -/
def TokenKind.isQuoted : TokenKind → Bool
  | .charLiteral | .stringLiteral | .bitStringLiteral => true
  | _ => false

/-- The byte `i` belongs to the token. -/
def Token.Holds (t : Token) (i : Nat) : Prop := t.span.start ≤ i ∧ i < t.span.stop

instance (t : Token) (i : Nat) : Decidable (t.Holds i) :=
  inferInstanceAs (Decidable (t.span.start ≤ i ∧ i < t.span.stop))

/-- Tokens of one kind at one place, whose texts differ in the case of letters at most, and not at all
if they are taken as they were written. -/
structure Token.Alike (t u : Token) : Prop where
  kind : t.kind = u.kind
  span : t.span = u.span
  lower : Ascii.lower t.text = Ascii.lower u.text
  text : t.kind.isQuoted → t.text = u.text

/-- Faults with one code at one place, in whatever words they are told. -/
structure Diagnostic.Alike (d e : Diagnostic) : Prop where
  code : d.code = e.code
  span : d.span = e.span

theorem SourceFile.byteLength_toLower (cs : List Char) :
    byteLength (cs.map Char.toLower) = byteLength cs := by
  induction cs with
  | nil => rfl
  | cons c cs ih => rw [List.map_cons, byteLength_cons, byteLength_cons, Ascii.utf8Size_toLower, ih]

namespace Lexer
open SourceFile (byteLength byteLength_toLower append_inj_of_byteLength byteLength_append)

/-! ### Shapes -/

theorem length_takeWhile_toLower {p : Char → Bool} (hp : ∀ c : Char, p c.toLower = p c) (cs : List Char) :
    ((cs.map Char.toLower).takeWhile p).length = (cs.takeWhile p).length := by
  have hcomp : p ∘ Char.toLower = p := funext hp
  rw [List.takeWhile_map, List.length_map, hcomp]

/-- Two characters that are no letters do not come to stand at the front. -/
theorem not_pair_toLower {a b c : Char} {cs : List Char} (ha : a.isAlpha = false) (hb : b.isAlpha = false)
    (h : ∀ rest, c = a → cs = b :: rest → False) :
    ∀ rest, c.toLower = a → cs.map Char.toLower = b :: rest → False := by
  intro rest hc hcs
  obtain ⟨d, ds, rfl, hd, -⟩ := List.map_eq_cons_iff.1 hcs
  obtain rfl := (Ascii.toLower_eq_iff hb).1 hd
  exact h ds ((Ascii.toLower_eq_iff ha).1 hc) rfl

theorem blockComment_toLower (cs : List Char) : blockComment (cs.map Char.toLower) = blockComment cs := by
  fun_induction blockComment cs with
  | case1 => rfl
  | case2 rest => rfl
  | case3 c cs hopen n closed heq ih =>
    rw [List.map_cons, blockComment, ih, heq]
    exact not_pair_toLower rfl rfl hopen

theorem stringBody_toLower (cs : List Char) : stringBody (cs.map Char.toLower) = stringBody cs := by
  have hends : ∀ c : Char, (c.toLower = '\n' || c.toLower = '\x00') = (c = '\n' || c = '\x00') := fun c => by
    simp only [Ascii.toLower_eq_iff (x := '\n') rfl, Ascii.toLower_eq_iff (x := '\x00') rfl]
  fun_induction stringBody cs with
  | case1 => rfl
  | case2 cs n closed heq ih =>
    have hquote : '\x22'.toLower = '\x22' := rfl
    rw [List.map_cons, List.map_cons, hquote, stringBody, ih, heq]
  | case3 cs hpair =>
    have hquote : '\x22'.toLower = '\x22' := rfl
    rw [List.map_cons, stringBody, if_pos hquote]
    exact not_pair_toLower rfl rfl hpair
  | case4 c cs hpair hquote hline =>
    rw [← hends c] at hline
    rw [List.map_cons, stringBody, if_neg (mt (Ascii.toLower_eq_iff rfl).1 hquote), if_pos hline]
    exact not_pair_toLower rfl rfl hpair
  | case5 c cs hpair hquote hline n closed heq ih =>
    rw [← hends c] at hline
    rw [List.map_cons, stringBody, if_neg (mt (Ascii.toLower_eq_iff rfl).1 hquote), if_neg hline, ih, heq]
    exact not_pair_toLower rfl rfl hpair

theorem stringShape_toLower (kind : TokenKind) (before : Nat) (body : List Char) :
    stringShape kind before (body.map Char.toLower) = stringShape kind before body := by
  rw [stringShape, stringShape, stringBody_toLower]

theorem wordShape_toLower (c : Char) (cs : List Char) :
    wordShape c.toLower (cs.map Char.toLower) = wordShape c cs := by
  have hword : ∀ n, Ascii.lower (String.ofList (c.toLower :: (cs.map Char.toLower).take n)) =
      Ascii.lower (String.ofList (c :: cs.take n)) := by
    intro n
    have hlower : String.ofList (c.toLower :: (cs.map Char.toLower).take n) =
        Ascii.lower (String.ofList (c :: cs.take n)) := by
      rw [Ascii.lower, String.toList_ofList, List.map_cons, List.map_take]
    rw [hlower, Ascii.lower_lower]
  unfold wordShape
  dsimp only
  rw [length_takeWhile_toLower Ascii.isWordRest_toLower_eq, hword, ← List.map_drop]
  generalize cs.drop (cs.takeWhile Ascii.isWordRest).length = rest
  cases rest with
  | nil => rfl
  | cons d body =>
    rw [List.map_cons]
    by_cases hd : d = '\x22'
    · subst hd
      have hquote : '\x22'.toLower = '\x22' := rfl
      simp only [hquote, stringShape_toLower]
    · have hd' := mt (Ascii.toLower_eq_iff rfl).1 hd
      simp [hd, hd']

theorem fraction_toLower (cs : List Char) : fraction (cs.map Char.toLower) = fraction cs := by
  cases cs with
  | nil => rfl
  | cons c cs =>
    by_cases hc : c = '.'
    · subst hc
      cases cs with
      | nil => rfl
      | cons d cs =>
        have hpoint : '.'.toLower = '.' := rfl
        rw [List.map_cons, List.map_cons, hpoint, fraction, fraction, Ascii.isDigit_toLower,
          length_takeWhile_toLower Ascii.isDigitRest_toLower]
    · have hc' := mt (Ascii.toLower_eq_iff rfl).1 hc
      rw [List.map_cons, fraction, fraction]
      · exact fun _ _ h => hc (List.cons.inj h).1
      · exact fun _ _ h => hc' (List.cons.inj h).1

theorem exponent_toLower (cs : List Char) : exponent (cs.map Char.toLower) = exponent cs := by
  rcases cs with _ | ⟨c, _ | ⟨d, cs⟩⟩
  · rfl
  · rfl
  · simp only [List.map_cons, exponent, Ascii.isExponentMark_toLower, Ascii.isDigit_toLower,
      Ascii.toLower_eq_iff (x := '+') rfl, length_takeWhile_toLower Ascii.isDigitRest_toLower]

theorem numberShape_toLower (cs : List Char) : numberShape (cs.map Char.toLower) = numberShape cs := by
  unfold numberShape
  dsimp only
  rw [length_takeWhile_toLower Ascii.isDigitRest_toLower, ← List.map_drop]
  generalize cs.drop (cs.takeWhile Ascii.isDigitRest).length = rest
  cases rest with
  | nil => rfl
  | cons c rest =>
    by_cases hc : c = '#'
    · subst hc
      have hsharp : '#'.toLower = '#' := rfl
      have hbased : ∀ c, Ascii.isBasedRest c.toLower = Ascii.isBasedRest c := fun c => by
        rw [Ascii.isBasedRest, Ascii.isBasedRest, Ascii.digitValue_toLower, Ascii.beq_toLower rfl]
      simp only [List.map_cons, hsharp]
      rw [length_takeWhile_toLower hbased, ← List.map_drop]
      generalize rest.drop (rest.takeWhile Ascii.isBasedRest).length = more
      cases more with
      | nil => rfl
      | cons d more =>
        rw [List.map_cons]
        by_cases hd : d = '#'
        · subst hd
          rfl
        · have hd' := mt (Ascii.toLower_eq_iff rfl).1 hd
          simp [hd, hd']
    · have hc' := mt (Ascii.toLower_eq_iff rfl).1 hc
      have hfraction : fraction (c.toLower :: rest.map Char.toLower) = fraction (c :: rest) :=
        fraction_toLower (c :: rest)
      have hexponent : ∀ n, exponent ((c.toLower :: rest.map Char.toLower).drop n) =
          exponent ((c :: rest).drop n) := fun n => by
        rw [← List.map_cons, ← List.map_drop, exponent_toLower]
      simp [hc, hc', hfraction, hexponent]

theorem pairSign_toLower (c d : Char) : pairSign c.toLower d.toLower = pairSign c d := by
  have hnone : ∀ a b : Char, a.isAlpha ∨ b.isAlpha → pairSign a b = none := by
    intro a b h
    unfold pairSign
    split <;> first | rfl | exact absurd h (by decide)
  by_cases h : c.isAlpha ∨ d.isAlpha
  · have h' : c.toLower.isAlpha ∨ d.toLower.isAlpha := by rwa [Ascii.isAlpha_toLower, Ascii.isAlpha_toLower]
    rw [hnone c d h, hnone _ _ h']
  · rw [not_or, Bool.not_eq_true, Bool.not_eq_true] at h
    rw [Ascii.toLower_of_not_isAlpha h.1, Ascii.toLower_of_not_isAlpha h.2]

theorem singleSign_toLower (c : Char) : singleSign c.toLower = singleSign c := by
  have hnone : ∀ a : Char, a.isAlpha → singleSign a = none := by
    intro a h
    unfold singleSign
    split <;> first | rfl | exact absurd h (by decide)
  cases h : c.isAlpha with
  | false => rw [Ascii.toLower_of_not_isAlpha h]
  | true => rw [hnone c h, hnone _ ((Ascii.isAlpha_toLower c).trans h)]

theorem signShape_toLower (c : Char) (cs : List Char) :
    signShape c.toLower (cs.map Char.toLower) = signShape c cs := by
  have hhead : (cs.map Char.toLower).head?.bind (pairSign c.toLower) = cs.head?.bind (pairSign c) := by
    cases cs with
    | nil => rfl
    | cons d cs => exact pairSign_toLower c d
  rw [signShape, signShape, hhead, singleSign_toLower]

theorem isCharLiteral_toLower (c : Char) (cs : List Char) :
    isCharLiteral c.toLower (cs.map Char.toLower) = isCharLiteral c cs := by
  rcases cs with _ | ⟨d, _ | ⟨e, cs⟩⟩
  · rfl
  · rfl
  · simp only [List.map_cons, isCharLiteral, Ascii.toLower_eq_iff (x := '\x27') rfl, Ascii.utf8Size_toLower]

theorem tokenShape_toLower (prev : Option TokenKind) (c : Char) (cs : List Char) :
    tokenShape prev c.toLower (cs.map Char.toLower) = tokenShape prev c cs := by
  rw [tokenShape, tokenShape, isCharLiteral_toLower, wordShape_toLower, numberShape_toLower,
    stringShape_toLower, signShape_toLower, Ascii.isWordStart, Ascii.isWordStart, Ascii.isAlpha_toLower,
    Ascii.isDigit_toLower]
  simp only [Ascii.toLower_eq_iff (x := '\x22') rfl]

theorem commentShape?_toLower (c : Char) (cs : List Char) :
    commentShape? c.toLower (cs.map Char.toLower) = commentShape? c cs := by
  cases cs with
  | nil => rfl
  | cons d cs =>
    have hline : ((cs.map Char.toLower).takeWhile (· ≠ '\n')).length = (cs.takeWhile (· ≠ '\n')).length :=
      length_takeWhile_toLower (fun c => by simp only [ne_eq, Ascii.toLower_eq_iff (x := '\n') rfl]) cs
    simp only [List.map_cons, commentShape?, hline, blockComment_toLower,
      Ascii.toLower_eq_iff (x := '-') rfl, Ascii.toLower_eq_iff (x := '/') rfl,
      Ascii.toLower_eq_iff (x := '*') rfl]

/-- What a text starts with does not depend on the case of its letters. -/
theorem shape_toLower (prev : Option TokenKind) (c : Char) (cs : List Char) :
    shape prev c.toLower (cs.map Char.toLower) = shape prev c cs := by
  rw [shape, shape, Ascii.isBlank_toLower, commentShape?_toLower, tokenShape_toLower]

/-! ### Pieces -/

/-- The piece in small letters. -/
def Piece.lower (p : Piece) : Piece := { p with text := p.text.map Char.toLower }

theorem cut_toLower (prev : Option TokenKind) (pos skip : Nat) (cs : List Char) :
    cut prev pos skip (cs.map Char.toLower) = (cut prev pos skip cs).map Piece.lower := by
  induction cs generalizing prev pos skip with
  | nil => rfl
  | cons c cs ih =>
    cases skip with
    | succ k => rw [List.map_cons, cut, cut, ih, Ascii.utf8Size_toLower]
    | zero =>
      simp only [List.map_cons, cut, ih, shape_toLower, Ascii.utf8Size_toLower, Piece.lower, List.map_take]

/-- Pieces of one kind at one place, whose texts differ at most in the case of letters. -/
structure Piece.Alike (p q : Piece) : Prop where
  kind : p.kind = q.kind
  text : p.text.map Char.toLower = q.text.map Char.toLower
  start : p.start = q.start
  fault : p.fault = q.fault

theorem Piece.alike_of_lower {p q : Piece} (h : p.lower = q.lower) : p.Alike q := by
  obtain ⟨kind, text, start, fault⟩ := p
  obtain ⟨kind', text', start', fault'⟩ := q
  obtain ⟨hkind, htext, hstart, hfault⟩ := Piece.mk.inj h
  exact ⟨hkind, htext, hstart, hfault⟩

theorem Piece.Alike.span {p q : Piece} (h : p.Alike q) (file : Nat) : p.span file = q.span file := by
  have hbytes : byteLength p.text = byteLength q.text := by
    rw [← byteLength_toLower, h.text, byteLength_toLower]
  rw [Piece.span, Piece.span, hbytes, h.start]

theorem pieces_alike {t u : String} (h : t.toList.map Char.toLower = u.toList.map Char.toLower) :
    List.Forall₂ Piece.Alike (pieces t) (pieces u) := by
  have hlower : (pieces t).map Piece.lower = (pieces u).map Piece.lower := by
    rw [pieces, pieces, ← cut_toLower, ← cut_toLower, h]
  rw [← List.forall₂_eq_eq_eq, List.forall₂_map_left_iff, List.forall₂_map_right_iff] at hlower
  exact hlower.imp fun _ _ => Piece.alike_of_lower

/-! ### Respelling -/

/-- The texts differ in the case of letters only, and not at letters in literals of the first. -/
structure Respelled (file : Nat) (t u : String) : Prop where
  length_eq : t.length = u.length
  differ : ∀ i < t.length, t.toList[i]? ≠ u.toList[i]? →
    (t.toList[i]?).map Char.toLower = (u.toList[i]?).map Char.toLower ∧
      ∀ k ∈ (lex file t).1, k.kind.isQuoted → ¬ k.Holds (byteLength (t.toList.take i))

instance (file : Nat) (t u : String) : Decidable (Respelled file t u) :=
  decidable_of_iff (t.length = u.length ∧ ∀ i < t.length, t.toList[i]? ≠ u.toList[i]? →
    (t.toList[i]?).map Char.toLower = (u.toList[i]?).map Char.toLower ∧
      ∀ k ∈ (lex file t).1, k.kind.isQuoted → ¬ k.Holds (byteLength (t.toList.take i)))
    ⟨fun h => ⟨h.1, h.2⟩, fun h => ⟨h.length_eq, h.differ⟩⟩

namespace Respelled
variable {file : Nat} {t u : String} (h : Respelled file t u)
include h

theorem lower_eq : t.toList.map Char.toLower = u.toList.map Char.toLower := by
  refine List.ext_getElem? fun i => ?_
  rw [List.getElem?_map, List.getElem?_map]
  by_cases heq : t.toList[i]? = u.toList[i]?
  · rw [heq]
  · have hi : i < t.length := by
      by_contra hle
      have ht : t.toList.length ≤ i := by rw [String.length_toList]; omega
      have hu : u.toList.length ≤ i := by rw [String.length_toList, ← h.length_eq]; omega
      rw [List.getElem?_eq_none ht, List.getElem?_eq_none hu] at heq
      exact heq rfl
    exact (h.differ i hi heq).1

/-- A literal is spelled in both texts alike. -/
theorem text_of_isQuoted {p q : Piece} (hp : p ∈ pieces t) (hq : q ∈ pieces u) (hpq : p.Alike q)
    {k : TokenKind} (hkind : p.kind = some k) (hk : k.isQuoted) : p.text = q.text := by
  obtain ⟨front, back, -, -, ht, hstart, -, -⟩ := cut_placed _ _ _ p hp
  obtain ⟨front', back', -, -, hu, hstart', -, -⟩ := cut_placed _ _ _ q hq
  rw [Nat.zero_add] at hstart hstart'
  -- both pieces stand behind as many characters
  have hfront : front.length = front'.length := by
    have hlower : front.map Char.toLower ++ (p.text ++ back).map Char.toLower =
        front'.map Char.toLower ++ (q.text ++ back').map Char.toLower := by
      rw [← List.map_append, ← List.map_append, ← List.append_assoc, ← List.append_assoc, ← ht, ← hu,
        h.lower_eq]
    have hbytes : byteLength (front.map Char.toLower) = byteLength (front'.map Char.toLower) := by
      rw [byteLength_toLower, byteLength_toLower, ← hstart, ← hstart', hpq.start]
    simpa using congrArg List.length (append_inj_of_byteLength hlower hbytes).1
  refine List.ext_getElem (by simpa using congrArg List.length hpq.text) fun j hj hj' => ?_
  by_contra hne
  have htj : t.toList[front.length + j]? = some p.text[j] := by
    rw [ht, List.append_assoc, List.getElem?_append_right (by omega), Nat.add_sub_cancel_left,
      List.getElem?_append_left hj, List.getElem?_eq_getElem hj]
  have huj : u.toList[front.length + j]? = some q.text[j] := by
    rw [hu, hfront, List.append_assoc, List.getElem?_append_right (by omega), Nat.add_sub_cancel_left,
      List.getElem?_append_left hj', List.getElem?_eq_getElem hj']
  have hlt : front.length + j < t.length := by
    rw [← String.length_toList]
    exact (List.getElem?_eq_some_iff.1 htj).1
  have hne' : t.toList[front.length + j]? ≠ u.toList[front.length + j]? := by
    rw [htj, huj]
    exact fun heq => hne (Option.some.inj heq)
  refine (h.differ _ hlt hne').2 _ (mem_lex.2 (.inl ⟨p, hp, k, hkind, rfl⟩)) hk ?_
  have htake : t.toList.take (front.length + j) = front ++ p.text.take j := by
    rw [ht, List.append_assoc, List.take_append, List.take_of_length_le (by omega), Nat.add_sub_cancel_left,
      List.take_append_of_le_length (by omega)]
  have hbytes : byteLength p.text = byteLength (p.text.take j) + byteLength (p.text.drop j) := by
    rw [← byteLength_append, List.take_append_drop]
  have hpos : 0 < byteLength (p.text.drop j) := SourceFile.byteLength_pos (by simpa using hj)
  rw [htake, byteLength_append, ← hstart]
  constructor
  · exact Nat.le_add_right _ _
  · show p.start + byteLength (p.text.take j) < p.start + byteLength p.text
    omega

end Respelled

/-! ### Tokens of respelled texts -/

section
variable {file : Nat} {t u : String}

theorem tokens_alike (h : Respelled file t u) :
    List.Forall₂ Token.Alike (lex file t).1 (lex file u).1 := by
  obtain ⟨hlen, hzip⟩ := List.forall₂_iff_zip.1 (pieces_alike h.lower_eq)
  have hpieces : List.Forall₂ (fun p q => (p, q) ∈ (pieces t).zip (pieces u)) (pieces t) (pieces u) :=
    List.forall₂_iff_zip.2 ⟨hlen, id⟩
  have heof : eof file t = eof file u := by
    rw [eof, eof, ← byteLength_toLower, h.lower_eq, byteLength_toLower]
  rw [lex_eq_pieces, lex_eq_pieces]
  refine List.rel_append (List.rel_filterMap (fun p q hpq => ?_) hpieces)
    (.cons (heof ▸ ⟨rfl, rfl, rfl, fun _ => rfl⟩) .nil)
  have halike := hzip hpq
  obtain ⟨hp, hq⟩ := List.of_mem_zip hpq
  cases hkind : p.kind with
  | none =>
    rw [Piece.token?, Piece.token?, ← halike.kind, hkind]
    exact .none
  | some k =>
    rw [Piece.token?, Piece.token?, ← halike.kind, hkind]
    refine .some ⟨rfl, halike.span file, ?_, fun hk => ?_⟩
    · rw [Ascii.lower, Ascii.lower, String.toList_ofList, String.toList_ofList, halike.text]
    · exact congrArg String.ofList (h.text_of_isQuoted hp hq halike hkind hk)

theorem faults_alike (h : t.toList.map Char.toLower = u.toList.map Char.toLower) (file : Nat) :
    List.Forall₂ Diagnostic.Alike (lex file t).2 (lex file u).2 := by
  rw [lex_eq_pieces, lex_eq_pieces]
  refine List.rel_filterMap (fun p q hpq => ?_) (pieces_alike h)
  rw [Piece.diagnostic?, Piece.diagnostic?, hpq.fault, hpq.span]
  cases q.fault with
  | none => exact .none
  | some f => exact .some ⟨rfl, rfl⟩

end

end Lexer

end HdlLint
