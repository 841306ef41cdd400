import HdlLint.Proofs.Lexing

/-!
# What tokens look like

The text of a token tells its kind. A name or reserved word is a word, a string has all its quotes in
pairs but the last, and a character literal is one byte between two ticks (`mem_lex_written`).
-/

namespace HdlLint

/-! ### Small letters -/

namespace Ascii

theorem isWordStart_iff {c : Char} : isWordStart c ↔ c.isUpper ∨ c.isLower :=
  Bool.or_eq_true_iff

theorem toLower_of_not_isUpper {c : Char} (h : c.isUpper = false) : c.toLower = c :=
  dif_neg (of_decide_eq_false h)

theorem isLower_toLower {c : Char} (h : c.isUpper) : c.toLower.isLower := by
  have hlower : c.toLower.toNat = (c.toNat + 32) % 4294967296 :=
    (congrArg Char.toNat (dif_pos (of_decide_eq_true h))).trans (UInt32.toNat_add _ _)
  have hupper := isUpper_iff.1 h
  rw [isLower_iff, hlower]
  omega

theorem not_isUpper_toLower (c : Char) : c.toLower.isUpper = false := by
  cases h : c.isUpper with
  | false => rwa [toLower_of_not_isUpper h]
  | true =>
    have hlower := isLower_iff.1 (isLower_toLower h)
    rw [← Bool.not_eq_true, isUpper_iff]
    omega

theorem isWordStart_toLower {c : Char} (h : isWordStart c) : isWordStart c.toLower := by
  cases hupper : c.isUpper with
  | false => rwa [toLower_of_not_isUpper hupper]
  | true => exact isWordStart_iff.2 (.inr (isLower_toLower hupper))

theorem isWordRest_toLower {c : Char} (h : isWordRest c) : isWordRest c.toLower := by
  cases hupper : c.isUpper with
  | false => rwa [toLower_of_not_isUpper hupper]
  | true =>
    have hstart : c.toLower.isAlpha := isWordStart_iff.2 (.inr (isLower_toLower hupper))
    simp [isWordRest, Char.isAlphanum, hstart]

theorem toList_lower (s : String) : (lower s).toList = s.toList.map Char.toLower :=
  String.toList_ofList

theorem lower_lower (s : String) : lower (lower s) = lower s := by
  have h : ∀ c : Char, c.toLower.toLower = c.toLower := fun c =>
    toLower_of_not_isUpper (not_isUpper_toLower c)
  rw [lower, toList_lower, List.map_map]
  exact congrArg String.ofList (List.map_congr_left fun c _ => h c)

end Ascii

namespace Lexer

/-! ### Words -/

/-- A letter, and then letters, digits and underscores. -/
def isWord : List Char → Bool
  | [] => false
  | c :: cs => Ascii.isWordStart c && cs.all Ascii.isWordRest

/-- A word is a name, unless it is reserved. -/
def wordKind (w : List Char) : TokenKind :=
  (Keyword.ofSpelling? (Ascii.lower (String.ofList w))).elim .identifier .keyword

theorem isWord_lower {w : String} (h : isWord w.toList) : isWord (Ascii.lower w).toList := by
  rw [Ascii.toList_lower]
  cases hw : w.toList with
  | nil => simp [hw, isWord] at h
  | cons c cs =>
    simp only [hw, isWord, Bool.and_eq_true, List.all_eq_true] at h
    simp only [List.map_cons, isWord, Bool.and_eq_true, List.all_eq_true, List.forall_mem_map]
    exact ⟨Ascii.isWordStart_toLower h.1, fun d hd => Ascii.isWordRest_toLower (h.2 d hd)⟩

theorem wordKind_lower (w : String) : wordKind (Ascii.lower w).toList = wordKind w.toList := by
  simp only [wordKind, String.ofList_toList, Ascii.lower_lower]

/-! ### Strings -/

/-- What follows the opening quote of a string, up to the closing one, wherever no further quote
stands behind it. -/
def Closed (body : List Char) : Prop :=
  ∀ r : List Char, r.head? ≠ some '\x22' → stringBody (body ++ r) = (body.length, true)

/-- A string, or a bit string such as `x"ff"`. -/
inductive IsString : List Char → Prop
  | plain {body} (hbody : Closed body) : IsString ('\x22' :: body)
  | bits {c body} (hstart : Ascii.isWordStart c)
      (hbase : Ascii.lower (String.ofList [c]) ∈ ["b", "o", "x", "d"]) (hbody : Closed body) :
      IsString (c :: '\x22' :: body)

theorem closed_take {cs : List Char} {n : Nat} (h : stringBody cs = (n, true)) : Closed (cs.take n) := by
  fun_induction stringBody cs generalizing n with
  | case1 => cases h
  | case2 cs m closed hrec ih =>
    obtain ⟨rfl, rfl⟩ := Prod.mk.inj h
    intro r hr
    simp only [List.take_succ_cons, List.cons_append, stringBody, ih hrec r hr, List.length_cons]
  | case3 cs hpair =>
    obtain ⟨rfl, -⟩ := Prod.mk.inj h
    intro r hr
    rcases r with _ | ⟨d, r⟩
    · rfl
    · have hd : d ≠ '\x22' := fun hd => hr (congrArg some hd)
      simp [stringBody, hd]
  | case4 => cases h
  | case5 c cs hpair hquote hline m closed hrec ih =>
    obtain ⟨rfl, rfl⟩ := Prod.mk.inj h
    intro r hr
    simp only [List.take_succ_cons, List.cons_append, List.length_cons]
    rw [stringBody, if_neg hquote, if_neg hline, ih hrec r hr]
    rintro _ rfl
    exact absurd rfl hquote

/-! ### Tokens of a text -/

/-- How tokens of a kind are written, for those kinds whose texts go into an expression as they are. -/
def Written : TokenKind → List Char → Prop
  | .identifier, w => isWord w ∧ wordKind w = .identifier
  | .keyword k, w => isWord w ∧ wordKind w = .keyword k
  | .charLiteral, w => ∃ c, c.utf8Size = 1 ∧ w = ['\x27', c, '\x27']
  | .stringLiteral, w => IsString w
  | .bitStringLiteral, w => IsString w
  | _, _ => True

theorem written_wordKind {w : List Char} (h : isWord w) : Written (wordKind w) w := by
  cases hk : Keyword.ofSpelling? (Ascii.lower (String.ofList w)) with
  | none => simp [wordKind, hk, Written, h]
  | some k => simp [wordKind, hk, Written, h]

/-- The token that the shape cuts off from `c :: cs` is written as its kind is. -/
def Shape.Writes (s : Shape) (c : Char) (cs : List Char) : Prop :=
  ∀ k, s.kind = some k → Written k (c :: cs.take s.more)

section
variable {c : Char} {cs : List Char}

theorem Shape.writes_token {k : TokenKind} {n : Nat} (h : Written k (c :: cs.take n)) :
    (Shape.token k n).Writes c cs := by
  rintro _ ⟨⟩
  exact h

theorem Shape.writes_invalid (f : SyntaxError) (n : Nat) : (Shape.invalid f n).Writes c cs := by
  rintro _ ⟨⟩
  trivial

theorem stringShape_writes {k : TokenKind} {before : Nat} {body : List Char}
    (h : ∀ n, Closed (body.take n) → Written k (c :: cs.take (before + n))) :
    (stringShape k before body).Writes c cs := by
  rcases hbody : stringBody body with ⟨n, _ | _⟩
  · rw [stringShape, hbody]
    exact Shape.writes_invalid _ _
  · rw [stringShape, hbody]
    exact Shape.writes_token (h n (closed_take hbody))

/-- A single letter in front of a quote. -/
theorem length_takeWhile_eq_zero {p : Char → Bool}
    (h : Ascii.lower (String.ofList (c :: cs.take (cs.takeWhile p).length)) ∈ ["b", "o", "x", "d"]) :
    (cs.takeWhile p).length = 0 := by
  have hlen : ∀ w ∈ ["b", "o", "x", "d"], w.toList.length = 1 := by decide
  have hone := hlen _ h
  rw [Ascii.toList_lower, String.toList_ofList, take_length_takeWhile] at hone
  simpa using hone

theorem wordShape_writes (hc : Ascii.isWordStart c) : (wordShape c cs).Writes c cs := by
  have hword : (Shape.token (wordKind (c :: cs.take (cs.takeWhile Ascii.isWordRest).length))
      (cs.takeWhile Ascii.isWordRest).length).Writes c cs := by
    refine Shape.writes_token (written_wordKind ?_)
    rw [take_length_takeWhile]
    simp only [isWord, Bool.and_eq_true, List.all_eq_true]
    exact ⟨hc, fun d hd => List.mem_takeWhile_imp hd⟩
  unfold wordShape
  dsimp only
  split
  · rename_i body hdrop
    split
    · rename_i hbase
      have hzero := length_takeWhile_eq_zero hbase
      rw [hzero] at hbase hdrop ⊢
      rw [List.drop_zero] at hdrop
      subst hdrop
      refine stringShape_writes fun n hbody => ?_
      rw [Nat.zero_add, Nat.add_comm, List.take_succ_cons]
      exact .bits hc hbase hbody
    · exact hword
  · exact hword

theorem wordShape_kind {k : TokenKind} (h : (wordShape c cs).kind = some k) :
    k = .bitStringLiteral ∨ k = .invalid ∨ k = wordKind (c :: cs.take (wordShape c cs).more) := by
  have hstring : ∀ (n : Nat) (body : List Char), (stringShape .bitStringLiteral n body).kind = some k →
      k = .bitStringLiteral ∨ k = .invalid := by
    intro n body hk
    unfold stringShape at hk
    dsimp only at hk
    split at hk
    · exact .inl (Option.some.inj hk).symm
    · exact .inr (Option.some.inj hk).symm
  unfold wordShape at h ⊢
  dsimp only at h ⊢
  split at h
  · split at h
    · rcases hstring _ _ h with hk | hk
      · exact .inl hk
      · exact .inr (.inl hk)
    · rename_i hbase
      rw [if_neg hbase]
      exact .inr (.inr (Option.some.inj h).symm)
  · exact .inr (.inr (Option.some.inj h).symm)

theorem numberShape_writes : (numberShape cs).Writes c cs := by
  unfold numberShape
  dsimp only
  split
  · split
    · exact Shape.writes_token trivial
    · exact Shape.writes_invalid _ _
  · split
    · exact Shape.writes_token trivial
    · exact Shape.writes_token trivial

theorem signShape_writes : (signShape c cs).Writes c cs := by
  unfold signShape
  split
  · exact Shape.writes_token trivial
  · split
    · exact Shape.writes_token trivial
    · exact Shape.writes_invalid _ _

theorem charLiteral_writes (h : isCharLiteral c cs) : (Shape.token .charLiteral 2).Writes c cs := by
  refine Shape.writes_token ?_
  unfold isCharLiteral at h
  split at h
  · rename_i d e cs
    obtain ⟨⟨rfl, hd⟩, rfl⟩ : (c = '\x27' ∧ d.utf8Size = 1) ∧ e = '\x27' := by simpa using h
    exact ⟨d, hd, rfl⟩
  · cases h

theorem tokenShape_writes (prev : Option TokenKind) : (tokenShape prev c cs).Writes c cs := by
  unfold tokenShape
  split
  · rename_i hchar
    exact charLiteral_writes (Bool.and_eq_true_iff.1 hchar).1
  · split
    · exact wordShape_writes ‹_›
    · split
      · exact numberShape_writes
      · split
        · rename_i hquote
          subst hquote
          refine stringShape_writes fun n hbody => ?_
          rw [Nat.zero_add]
          exact .plain hbody
        · exact signShape_writes

theorem commentShape?_kind {s : Shape} (h : commentShape? c cs = some s) : s.kind = none := by
  cases cs with
  | nil => cases h
  | cons d cs =>
    simp only [commentShape?] at h
    split at h
    · obtain rfl := Option.some.inj h
      rfl
    · split at h
      · obtain rfl := Option.some.inj h
        rfl
      · cases h

theorem shape_writes (prev : Option TokenKind) : (shape prev c cs).Writes c cs := by
  by_cases hblank : Ascii.isBlank c
  · simp only [shape, hblank, if_true]
    intro k hk
    cases hk
  cases hcomment : commentShape? c cs with
  | some s =>
    rw [shape_comment (by simpa using hblank) hcomment]
    intro k hk
    rw [commentShape?_kind hcomment] at hk
    cases hk
  | none =>
    simp only [shape, hblank, hcomment]
    exact tokenShape_writes prev

end

/-- Every token of a text is written as its kind is. -/
theorem mem_lex_written {file : Nat} {text : String} {t : Token} (h : t ∈ (lex file text).1) :
    Written t.kind t.text.toList := by
  rcases mem_lex.1 h with ⟨p, hp, k, hk, rfl⟩ | rfl
  · rw [String.toList_ofList]
    exact cut_forall (fun prev _ _ => shape_writes prev) p hp k hk
  · trivial

end Lexer
end HdlLint
