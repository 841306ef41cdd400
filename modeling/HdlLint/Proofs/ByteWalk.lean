import Mathlib.Data.List.TakeWhile
import Mathlib.Tactic.SplitIfs
import HdlLint.Proofs.Pieces

/-!
# Bytes and characters

The reader of bytes always stands between two characters of a text: `Left source pos cs` says that the
characters `cs` are what is left of the text at the offset `pos`. A character of several bytes has none that
stands for a character of one byte (`Left.byteAt_wide`), so what the reader looks for is found where a
character starts, and it passes over the other bytes one by one (`Left.passWide`) or by the number that
the first of them tells (`utf8Width_eq`). From this it follows that the tokens and faults that the reader
of bytes finds are those of the pieces of the text (`lex_eq_pieces`).
-/

namespace HdlLint

/-! ### Letters -/

namespace Ascii

theorem isUpper_iff {c : Char} : c.isUpper ↔ 65 ≤ c.toNat ∧ c.toNat ≤ 90 := by
  have hdef : c.isUpper = decide ('A'.val ≤ c.val ∧ c.val ≤ 'Z'.val) := rfl
  simp [hdef, UInt32.le_iff_toNat_le]

theorem isLower_iff {c : Char} : c.isLower ↔ 97 ≤ c.toNat ∧ c.toNat ≤ 122 := by
  have hdef : c.isLower = (decide ('a'.val ≤ c.val) && decide (c.val ≤ 'z'.val)) := rfl
  simp [hdef, UInt32.le_iff_toNat_le]

end Ascii

namespace Lexer
open SourceFile (byteLength byteLength_nil byteLength_cons byteLength_append)

/-! ### Characters and their bytes -/

/-- The characters of one byte. -/
def IsPlain (c : Char) : Prop := c.utf8Size = 1

instance (c : Char) : Decidable (IsPlain c) := inferInstanceAs (Decidable (c.utf8Size = 1))

theorem isPlain_iff {c : Char} : IsPlain c ↔ c.val.toNat ≤ 127 := by
  rw [IsPlain, Char.utf8Size_eq_one_iff, UInt32.le_iff_toNat_le]
  rfl

theorem encodeChar_plain {c : Char} (h : IsPlain c) : String.utf8EncodeChar c = [c.toUInt8] := by
  have hval := isPlain_iff.1 h
  simp only [String.utf8EncodeChar, hval, if_true]
  rfl

theorem ofUInt8_toUInt8 {c : Char} (h : IsPlain c) : Char.ofUInt8 c.toUInt8 = c := by
  have hval := isPlain_iff.1 h
  refine Char.ext (UInt32.toNat_inj.1 ?_)
  show c.val.toUInt8.toUInt32.toNat = c.val.toNat
  rw [UInt8.toNat_toUInt32, UInt32.toNat_toUInt8]
  omega

theorem not_isPlain_ofUInt8 {b : UInt8} (h : 128 ≤ b) : ¬ IsPlain (Char.ofUInt8 b) := by
  rw [isPlain_iff]
  show ¬ b.toUInt32.toNat ≤ 127
  rw [UInt8.toNat_toUInt32]
  have hle := UInt8.le_iff_toNat_le.1 h
  simp only [UInt8.reduceToNat] at hle
  omega

/-- The bytes of a character of several bytes are no characters of their own. -/
theorem le_of_mem_encodeChar {c : Char} (h : ¬ IsPlain c) : ∀ b ∈ String.utf8EncodeChar c, 128 ≤ b := by
  rw [isPlain_iff] at h
  intro b hb
  simp only [String.utf8EncodeChar] at hb
  rw [UInt8.le_iff_toNat_le]
  split_ifs at hb <;> simp only [List.mem_cons, List.not_mem_nil, or_false] at hb
  all_goals
    rcases hb with rfl | rfl | rfl | rfl <;>
      simp only [UInt8.toNat_ofNat', UInt8.reduceToNat] <;> omega

/-- The first byte of a character tells how many it has. -/
theorem utf8Width_eq {c : Char} : (String.utf8EncodeChar c).head?.map utf8Width = some c.utf8Size := by
  have hvalid : c.val.toNat < 1114112 := by
    rcases c.valid with hlow | ⟨-, hhigh⟩
    · exact Nat.lt_trans hlow (by decide)
    · exact hhigh
  have hwidth : ∀ n, n < 256 → utf8Width (UInt8.ofNat n) =
      if 192 ≤ n ∧ n ≤ 223 then 2 else if 224 ≤ n ∧ n ≤ 239 then 3
      else if 240 ≤ n ∧ n ≤ 247 then 4 else 1 := by decide +kernel
  rw [← String.length_utf8EncodeChar]
  simp only [String.utf8EncodeChar]
  split_ifs <;> rw [List.head?_cons, Option.map_some, hwidth _ (by omega), Option.some_inj] <;>
    split_ifs <;> first | rfl | omega

theorem isPlain_of_isAlphanum {c : Char} (h : c.isAlphanum) : IsPlain c := by
  rw [isPlain_iff]
  change c.toNat ≤ 127
  have hcases : c.isAlphanum = (c.isUpper || c.isLower || c.isDigit) := rfl
  have hdigit : c.isDigit = (decide (c.val ≥ '0'.val) && decide (c.val ≤ '9'.val)) := rfl
  rw [hcases, Bool.or_eq_true, Bool.or_eq_true, Ascii.isUpper_iff, Ascii.isLower_iff] at h
  rcases h with (h | h) | h
  · omega
  · omega
  · rw [hdigit, Bool.and_eq_true, decide_eq_true_iff, decide_eq_true_iff] at h
    have hle : c.toNat ≤ 57 := UInt32.le_iff_toNat_le.1 h.2
    omega

theorem isPlain_of_isWordRest {c : Char} (h : Ascii.isWordRest c) : IsPlain c := by
  rcases (by simpa [Ascii.isWordRest] using h : c.isAlphanum ∨ c = '_') with h | rfl
  · exact isPlain_of_isAlphanum h
  · decide

theorem isPlain_of_isBlank {c : Char} (h : Ascii.isBlank c) : IsPlain c := by
  simp only [Ascii.isBlank, Bool.or_eq_true, beq_iff_eq] at h
  rcases h with (((rfl | rfl) | rfl) | rfl) | rfl <;> decide

theorem isPlain_of_isDigit {c : Char} (h : c.isDigit) : IsPlain c :=
  isPlain_of_isAlphanum (by simp [Char.isAlphanum, h])

theorem isPlain_of_isDigitRest {c : Char} (h : Ascii.isDigitRest c) : IsPlain c :=
  isPlain_of_isWordRest (by simp_all [Ascii.isDigitRest, Ascii.isWordRest, Char.isAlphanum]; grind)

theorem isPlain_of_isBasedRest {c : Char} (h : Ascii.isBasedRest c) : IsPlain c := by
  rcases (by simpa [Ascii.isBasedRest] using h : (Ascii.digitValue c).isSome ∨ c = '_') with h | rfl
  · unfold Ascii.digitValue at h
    split_ifs at h with hdigit hsmall hbig
    · exact isPlain_of_isDigit hdigit
    · exact isPlain_iff.2 (Nat.le_trans hsmall.2 (by decide))
    · exact isPlain_iff.2 (Nat.le_trans hbig.2 (by decide))
    · cases h
  · decide

/-! ### What is left of a text -/

/-- The characters `cs` are what is left at the offset `pos`. -/
structure Left (source : ByteArray) (pos : Nat) (cs : List Char) : Prop where
  le_size : pos ≤ source.size
  bytes : source.data.toList.drop pos = cs.flatMap String.utf8EncodeChar

theorem length_flatMap_encodeChar (cs : List Char) :
    (cs.flatMap String.utf8EncodeChar).length = byteLength cs := by
  induction cs with
  | nil => rfl
  | cons c cs ih => rw [List.flatMap_cons, List.length_append, ih, String.length_utf8EncodeChar, byteLength_cons]

theorem left_zero (text : String) : Left text.toUTF8 0 text.toList where
  le_size := Nat.zero_le _
  bytes := by
    rw [List.drop_zero, String.toUTF8_eq_toByteArray, ← String.utf8Encode_toList, List.utf8Encode,
      List.toList_data_toByteArray]

namespace Left
variable {source : ByteArray} {pos : Nat} {c d : Char} {cs : List Char}

theorem size_eq (h : Left source pos cs) : source.size = pos + byteLength cs := by
  have hlen := congrArg List.length h.bytes
  rw [List.length_drop, length_flatMap_encodeChar, Array.length_toList, ByteArray.size_data] at hlen
  have hle := h.le_size
  omega

theorem lt_size (h : Left source pos (c :: cs)) : pos < source.size := by
  have hsize := h.size_eq
  have hpos := c.utf8Size_pos
  rw [byteLength_cons] at hsize
  omega

/-- What is left tells the offset. -/
theorem pos_eq {pos' : Nat} {a : List Char} (h : Left source pos (a ++ cs)) (h' : Left source pos' cs) :
    pos' = pos + byteLength a := by
  have hsize := h.size_eq
  have hsize' := h'.size_eq
  rw [byteLength_append] at hsize
  omega

theorem append {a : List Char} (h : Left source pos (a ++ cs)) : Left source (pos + byteLength a) cs where
  le_size := by
    have hsize := h.size_eq
    rw [byteLength_append] at hsize
    omega
  bytes := by
    rw [← List.drop_drop, h.bytes, List.flatMap_append, ← length_flatMap_encodeChar, List.drop_left]

theorem tail (h : Left source pos (c :: cs)) : Left source (pos + c.utf8Size) cs :=
  append (show Left source pos ([c] ++ cs) from h)

theorem tail_plain (h : Left source pos (c :: cs)) (hc : IsPlain c) : Left source (pos + 1) cs := by
  have htail := h.tail
  rwa [show c.utf8Size = 1 from hc] at htail

theorem drop (h : Left source pos cs) (n : Nat) : ∃ pos', Left source pos' (cs.drop n) :=
  ⟨_, append (a := cs.take n) (by rwa [List.take_append_drop])⟩

theorem byteAt_eq (h : Left source pos cs) (k : Nat) :
    byteAt source (pos + k) = ((cs.flatMap String.utf8EncodeChar)[k]?).getD 0 := by
  rw [← h.bytes, List.getElem?_drop, byteAt]
  split
  · rename_i hlt
    rw [ByteArray.getElem_eq_getElem_data, Array.getElem?_toList, Array.getElem?_eq_getElem]
    rfl
  · rename_i hle
    rw [List.getElem?_eq_none]
    · rfl
    · rw [Array.length_toList, ByteArray.size_data]
      omega

theorem byteAt_nil (h : Left source pos []) (k : Nat) : byteAt source (pos + k) = 0 := by
  rw [h.byteAt_eq]
  rfl

theorem byteAt_plain (h : Left source pos (c :: cs)) (hc : IsPlain c) : byteAt source pos = c.toUInt8 := by
  have hbyte := h.byteAt_eq 0
  rw [List.flatMap_cons, encodeChar_plain hc] at hbyte
  exact hbyte

theorem byteAt_wide (h : Left source pos (c :: cs)) (hc : ¬ IsPlain c) {k : Nat} (hk : k < c.utf8Size) :
    128 ≤ byteAt source (pos + k) := by
  rw [← String.length_utf8EncodeChar] at hk
  rw [h.byteAt_eq, List.flatMap_cons, List.getElem?_append_left hk, List.getElem?_eq_getElem hk]
  exact le_of_mem_encodeChar hc _ (List.getElem_mem hk)

/-- A character of several bytes is passed over by what goes on behind each of its bytes. -/
theorem passWide {α : Type} {f : Nat → α} (h : Left source pos (c :: cs)) (hc : ¬ IsPlain c)
    (hf : ∀ i, 128 ≤ byteAt source i → f i = f (i + 1)) : f pos = f (pos + c.utf8Size) := by
  suffices hall : ∀ k ≤ c.utf8Size, f pos = f (pos + k) from hall _ (Nat.le_refl _)
  intro k hk
  induction k with
  | zero => rfl
  | succ k ih => rw [ih (by omega), hf _ (h.byteAt_wide hc (by omega))]; rfl

/-- A character of one byte is found where it stands. -/
theorem isAt_eq (h : Left source pos cs) (hd : IsPlain d) (hnul : d ≠ '\x00') :
    isAt source pos d = (cs.head? == some d) := by
  have hbyte : d.toUInt8 ≠ 0 := fun hzero => hnul (by rw [← ofUInt8_toUInt8 hd, hzero]; rfl)
  cases cs with
  | nil =>
    have hzero : byteAt source pos = 0 := h.byteAt_nil 0
    simpa [isAt, hzero] using Ne.symm hbyte
  | cons c cs =>
    rw [isAt, List.head?_cons, Bool.eq_iff_iff, beq_iff_eq, beq_iff_eq, Option.some_inj]
    by_cases hc : IsPlain c
    · rw [h.byteAt_plain hc]
      refine ⟨fun heq => ?_, fun heq => heq ▸ rfl⟩
      rw [← ofUInt8_toUInt8 hc, heq, ofUInt8_toUInt8 hd]
    · have hwide : 128 ≤ byteAt source pos := h.byteAt_wide hc c.utf8Size_pos
      refine ⟨fun heq => ?_, fun heq => absurd hd (heq ▸ hc)⟩
      rw [heq] at hwide
      exact absurd ((ofUInt8_toUInt8 hd).symm ▸ hd) (not_isPlain_ofUInt8 hwide)

/-- So is the first character with a property of characters of one byte. -/
theorem any_byteAt {p : Char → Bool} (h : Left source pos cs) (hp : ∀ c, p c → IsPlain c)
    (hnul : p '\x00' = false) : p (Char.ofUInt8 (byteAt source pos)) = cs.head?.any p := by
  cases cs with
  | nil =>
    have hzero : byteAt source pos = 0 := h.byteAt_nil 0
    rw [hzero]
    exact hnul
  | cons c cs =>
    by_cases hc : IsPlain c
    · rw [h.byteAt_plain hc, ofUInt8_toUInt8 hc]
      rfl
    · have hwide : 128 ≤ byteAt source pos := h.byteAt_wide hc c.utf8Size_pos
      have hfalse : p c = false := Bool.eq_false_iff.2 fun hpc => hc (hp c hpc)
      rw [List.head?_cons, Option.any_some, hfalse, Bool.eq_false_iff]
      exact fun hpb => not_isPlain_ofUInt8 hwide (hp _ hpb)

theorem left_pass {p : CharClass} (h : Left source pos cs) (hp : ∀ c, p.has c → IsPlain c) :
    Left source (p.pass source pos) (cs.dropWhile p.has) := by
  induction cs generalizing pos with
  | nil =>
    have hnone : p.isAt source pos = false := h.any_byteAt hp p.nul
    rw [CharClass.pass, dif_neg (by simp [hnone])]
    exact h
  | cons c cs ih =>
    have hfirst : p.isAt source pos = p.has c := h.any_byteAt hp p.nul
    rw [CharClass.pass, List.dropWhile_cons]
    by_cases hc : p.has c
    · rw [dif_pos (hfirst.trans hc), if_pos hc]
      exact ih (h.tail_plain (hp c hc))
    · rw [dif_neg (by rwa [hfirst]), if_neg hc]
      exact h

theorem textAt_eq {a : List Char} {stop : Nat} (h : Left source pos (a ++ cs)) (hstop : Left source stop cs) :
    textAt source pos stop = String.ofList a := by
  have hpos := h.pos_eq hstop
  have hbytes : source.extract pos stop = a.utf8Encode := by
    refine ByteArray.ext (Array.toList_inj.1 ?_)
    rw [ByteArray.data_extract, Array.toList_extract, List.extract_eq_take_drop, h.bytes,
      List.flatMap_append, hpos, Nat.add_sub_cancel_left, ← length_flatMap_encodeChar, List.take_left,
      List.utf8Encode, List.toList_data_toByteArray]
  rw [textAt, hbytes, String.fromUTF8?, dif_pos ⟨a, rfl⟩]
  rfl

end Left

/-! ### What the reader recognizes -/

section
variable {source : ByteArray} {pos n : Nat} {c d : Char} {cs : List Char}

theorem isAt_wide (h : 128 ≤ byteAt source pos) (hd : IsPlain d) : isAt source pos d = false := by
  rw [isAt, beq_eq_false_iff_ne]
  rintro heq
  rw [heq] at h
  exact not_isPlain_ofUInt8 h ((ofUInt8_toUInt8 hd).symm ▸ hd)

theorem lineEnd_wide (h : 128 ≤ byteAt source pos) : lineEnd source pos = lineEnd source (pos + 1) := by
  have hlt : pos < source.size := lt_size_of_byteAt (by rintro hzero; rw [hzero] at h; revert h; decide)
  have hne := isAt_wide h (d := '\n') (by decide)
  rw [isAt, byteAt, dif_pos hlt, beq_eq_false_iff_ne] at hne
  rw [lineEnd, dif_pos hlt, if_neg hne]

theorem blockEnd_wide (h : 128 ≤ byteAt source pos) : blockEnd source pos = blockEnd source (pos + 1) := by
  have hlt : pos < source.size := lt_size_of_byteAt (by rintro hzero; rw [hzero] at h; revert h; decide)
  rw [blockEnd, if_neg (by omega), isAt_wide h (by decide)]
  rfl

theorem stringAt_wide {kind : TokenKind} (h : 128 ≤ byteAt source pos) :
    stringAt source kind pos = stringAt source kind (pos + 1) := by
  have hzero : byteAt source pos ≠ 0 := by rintro hzero; rw [hzero] at h; revert h; decide
  rw [stringAt, dif_neg (by simp [isAt_wide h (d := '\x22') (by decide)]),
    dif_neg (by simp [hzero, isAt_wide h (d := '\n') (by decide)])]

theorem Left.left_lineEnd (h : Left source pos cs) :
    Left source (lineEnd source pos) (cs.dropWhile (· ≠ '\n')) := by
  induction cs generalizing pos with
  | nil =>
    have hsize := h.size_eq
    rw [lineEnd, dif_neg (by simp at hsize; omega)]
    exact h
  | cons c cs ih =>
    have hlt := h.lt_size
    have hat := h.isAt_eq (d := '\n') (by decide) (by decide)
    rw [isAt, byteAt, dif_pos hlt, List.head?_cons] at hat
    rw [List.dropWhile_cons]
    by_cases hc : c = '\n'
    · subst hc
      rw [lineEnd, dif_pos hlt, if_pos (by simpa using hat)]
      exact h
    · rw [if_pos (by simpa using hc)]
      by_cases hplain : IsPlain c
      · rw [lineEnd, dif_pos hlt, if_neg (by simpa [hc] using hat)]
        exact ih (h.tail_plain hplain)
      · rw [h.passWide hplain fun i => lineEnd_wide]
        exact ih h.tail

theorem Left.left_blockEnd (h : Left source pos cs) :
    (blockEnd source pos).2 = (blockComment cs).2 ∧
      Left source (blockEnd source pos).1 (cs.drop (blockComment cs).1) := by
  fun_induction blockComment cs generalizing pos with
  | case1 =>
    have hsize := h.size_eq
    rw [blockEnd, if_pos (by simp at hsize; omega)]
    exact ⟨rfl, h⟩
  | case2 rest =>
    have hlt := h.lt_size
    have hstar := h.isAt_eq (d := '*') (by decide) (by decide)
    have hslash := (h.tail_plain (by decide)).isAt_eq (d := '/') (by decide) (by decide)
    rw [blockEnd, if_neg (by omega), hstar, hslash]
    exact ⟨rfl, (h.tail_plain (by decide)).tail_plain (by decide)⟩
  | case3 c cs hopen n closed heq ih =>
    rw [heq] at ih
    by_cases hplain : IsPlain c
    · have hlt := h.lt_size
      have hstar := h.isAt_eq (d := '*') (by decide) (by decide)
      have hslash := (h.tail_plain hplain).isAt_eq (d := '/') (by decide) (by decide)
      have hnone : ¬ (isAt source pos '*' && isAt source (pos + 1) '/') = true := by
        rw [hstar, hslash, Bool.and_eq_true, beq_iff_eq, beq_iff_eq, List.head?_cons, Option.some_inj]
        rintro ⟨hc, hhead⟩
        obtain ⟨rest, hrest⟩ := List.head?_eq_some_iff.1 hhead
        exact hopen rest hc hrest
      rw [blockEnd, if_neg (by omega), if_neg hnone]
      exact ih (h.tail_plain hplain)
    · rw [h.passWide hplain fun i => blockEnd_wide]
      exact ih h.tail

theorem Left.left_stringAt (h : Left source pos cs) (kind : TokenKind) :
    ∃ stop, Left source stop (cs.drop (stringBody cs).1) ∧ stringAt source kind pos =
      if (stringBody cs).2 then { kind, stop } else .invalid .unterminatedString stop := by
  fun_induction stringBody cs generalizing pos with
  | case1 =>
    have hquote := h.isAt_eq (d := '\x22') (by decide) (by decide)
    have hzero : byteAt source pos = 0 := h.byteAt_nil 0
    rw [stringAt, dif_neg (by simp [hquote]), dif_pos (by simp [hzero])]
    exact ⟨pos, h, rfl⟩
  | case2 cs n closed heq ih =>
    have hquote := h.isAt_eq (d := '\x22') (by decide) (by decide)
    have hquote' := (h.tail_plain (by decide)).isAt_eq (d := '\x22') (by decide) (by decide)
    obtain ⟨stop, hstop, hread⟩ := ih ((h.tail_plain (by decide)).tail_plain (by decide))
    rw [heq] at hstop hread
    rw [stringAt, dif_pos (by simp [hquote]), if_pos (by simp [hquote'])]
    exact ⟨stop, hstop, hread⟩
  | case3 cs hsingle =>
    have hquote := h.isAt_eq (d := '\x22') (by decide) (by decide)
    have hquote' := (h.tail_plain (by decide)).isAt_eq (d := '\x22') (by decide) (by decide)
    have hnone : ¬ isAt source (pos + 1) '\x22' = true := by
      rw [hquote', beq_iff_eq]
      intro hhead
      obtain ⟨rest, hrest⟩ := List.head?_eq_some_iff.1 hhead
      exact hsingle rest rfl hrest
    rw [stringAt, dif_pos (by simp [hquote]), if_neg hnone]
    exact ⟨pos + 1, h.tail_plain (by decide), rfl⟩
  | case4 c cs hsingle hc hend =>
    have hquote := h.isAt_eq (d := '\x22') (by decide) (by decide)
    have hstops : (byteAt source pos = 0 || isAt source pos '\n') = true := by
      rcases (by simpa using hend : c = '\n' ∨ c = '\x00') with rfl | rfl
      · simp [h.isAt_eq (d := '\n') (by decide) (by decide)]
      · have hzero : byteAt source pos = 0 := h.byteAt_plain (by decide)
        simp [hzero]
    rw [stringAt, dif_neg (by simpa [hquote] using hc), dif_pos hstops]
    exact ⟨pos, h, rfl⟩
  | case5 c cs hsingle hc hend n closed heq ih =>
    rw [heq] at ih
    by_cases hplain : IsPlain c
    · have hquote := h.isAt_eq (d := '\x22') (by decide) (by decide)
      have hline := h.isAt_eq (d := '\n') (by decide) (by decide)
      obtain ⟨hline', hnul⟩ : c ≠ '\n' ∧ c ≠ '\x00' := by simpa using hend
      have hzero : byteAt source pos ≠ 0 := by
        rw [h.byteAt_plain hplain]
        exact fun hzero => hnul (by rw [← ofUInt8_toUInt8 hplain, hzero]; rfl)
      rw [stringAt, dif_neg (by simpa [hquote] using hc), dif_neg (by simp [hzero, hline, hline'])]
      exact ih (h.tail_plain hplain)
    · rw [h.passWide hplain fun i => stringAt_wide]
      exact ih h.tail

/-- What is recognized at an offset is a token of the shape `s`, whose first character stands in front of
`cs`. -/
structure Lexeme.Reads (source : ByteArray) (cs : List Char) (l : Lexeme) (s : Shape) : Prop where
  kind : s.kind = some l.kind
  fault : s.fault = l.fault
  left : Left source l.stop (cs.drop s.more)

theorem Left.reads_stringAt (h : Left source pos (cs.drop n)) (kind : TokenKind) :
    (stringAt source kind pos).Reads source cs (stringShape kind n (cs.drop n)) := by
  obtain ⟨stop, hstop, hread⟩ := h.left_stringAt kind
  rw [List.drop_drop] at hstop
  rw [hread]
  unfold stringShape
  dsimp only
  split
  · exact ⟨rfl, rfl, hstop⟩
  · exact ⟨rfl, rfl, hstop⟩

theorem wordShape_eq (c : Char) (cs : List Char) : wordShape c cs =
    if (cs.dropWhile Ascii.isWordRest).head? == some '\x22' &&
        Ascii.lower (String.ofList (c :: cs.takeWhile Ascii.isWordRest)) ∈ ["b", "o", "x", "d"] then
      stringShape .bitStringLiteral ((cs.takeWhile Ascii.isWordRest).length + 1)
        (cs.drop ((cs.takeWhile Ascii.isWordRest).length + 1))
    else .token ((Keyword.ofSpelling? (Ascii.lower (String.ofList
      (c :: cs.takeWhile Ascii.isWordRest)))).elim .identifier .keyword)
        (cs.takeWhile Ascii.isWordRest).length := by
  unfold wordShape
  simp only [← List.drop_drop, drop_length_takeWhile, take_length_takeWhile]
  split
  · rename_i body hbody
    simp [hbody]
  · rename_i hother
    rw [if_neg]
    rw [Bool.and_eq_true, beq_iff_eq]
    rintro ⟨hhead, -⟩
    obtain ⟨body, hbody⟩ := List.head?_eq_some_iff.1 hhead
    exact hother body hbody

theorem Left.reads_wordAt (h : Left source pos (c :: cs)) (hc : Ascii.isWordStart c) :
    (wordAt source pos).Reads source cs (wordShape c cs) := by
  have hfirst : Ascii.isWordRest c := by simp_all [Ascii.isWordRest, Ascii.isWordStart, Char.isAlphanum]
  have hpass : Left source (CharClass.wordRest.pass source pos) (cs.dropWhile Ascii.isWordRest) := by
    have hpass := h.left_pass (p := .wordRest) fun _ => isPlain_of_isWordRest
    rwa [List.dropWhile_cons, if_pos (show CharClass.wordRest.has c from hfirst)] at hpass
  have htext : textAt source pos (CharClass.wordRest.pass source pos) =
      String.ofList (c :: cs.takeWhile Ascii.isWordRest) := by
    refine Left.textAt_eq ?_ hpass
    rwa [List.cons_append, List.takeWhile_append_dropWhile]
  rw [wordAt, htext, hpass.isAt_eq (by decide) (by decide), wordShape_eq]
  split
  · rename_i hbits
    obtain ⟨body, hbody⟩ := List.head?_eq_some_iff.1 (beq_iff_eq.1 (Bool.and_eq_true _ _ ▸ hbits).1)
    refine Left.reads_stringAt ?_ _
    rw [← List.drop_drop, drop_length_takeWhile, hbody]
    exact (hbody ▸ hpass).tail_plain (by decide)
  · exact ⟨rfl, rfl, (drop_length_takeWhile _ cs).symm ▸ hpass⟩

theorem Left.left_digitsEnd (h : Left source pos cs) :
    Left source (digitsEnd source pos) (cs.dropWhile Ascii.isDigitRest) :=
  h.left_pass fun _ => isPlain_of_isDigitRest

theorem Left.isDigitAt_eq (h : Left source pos cs) : isDigitAt source pos = cs.head?.any Char.isDigit :=
  h.any_byteAt (fun _ => isPlain_of_isDigit) rfl

/-- A character of one byte that is found is the first one of what is left. -/
theorem Left.exists_cons (h : Left source pos cs) (hd : IsPlain d) (hnul : d ≠ '\x00')
    (hat : isAt source pos d) : ∃ cs', cs = d :: cs' ∧ Left source (pos + 1) cs' := by
  rw [h.isAt_eq hd hnul, beq_iff_eq] at hat
  obtain ⟨cs', rfl⟩ := List.head?_eq_some_iff.1 hat
  exact ⟨cs', rfl, h.tail_plain hd⟩

theorem Left.exists_digit (h : Left source pos cs) (hat : isDigitAt source pos) :
    ∃ c cs', cs = c :: cs' ∧ c.isDigit ∧ Left source (pos + 1) cs' := by
  rw [h.isDigitAt_eq] at hat
  cases cs with
  | nil => cases hat
  | cons c cs => exact ⟨c, cs, rfl, hat, h.tail_plain (isPlain_of_isDigit hat)⟩

theorem Left.left_fraction (h : Left source pos cs) :
    ∃ stop, Left source stop (cs.drop (fraction cs)) ∧
      (if isAt source pos '.' && isDigitAt source (pos + 1) then
          (TokenKind.realLiteral, digitsEnd source (pos + 1))
        else (.intLiteral, pos)) = (if fraction cs = 0 then .intLiteral else .realLiteral, stop) := by
  by_cases hfrac : isAt source pos '.' && isDigitAt source (pos + 1)
  · rw [if_pos hfrac]
    rw [Bool.and_eq_true] at hfrac
    obtain ⟨cs, rfl, h'⟩ := h.exists_cons (by decide) (by decide) hfrac.1
    obtain ⟨d, cs, rfl, hd, -⟩ := h'.exists_digit hfrac.2
    have hend := h'.left_digitsEnd
    rw [List.dropWhile_cons, if_pos (by simp [Ascii.isDigitRest, hd]), ← drop_length_takeWhile] at hend
    have hf : fraction ('.' :: d :: cs) = (cs.takeWhile Ascii.isDigitRest).length + 1 + 1 := by
      rw [fraction, if_pos hd]
      omega
    rw [hf]
    exact ⟨_, hend, rfl⟩
  · have hf : fraction cs = 0 := by
      unfold fraction
      split
      · rename_i d cs
        have hpoint := h.isAt_eq (d := '.') (by decide) (by decide)
        have hdigit := (h.tail_plain (by decide)).isDigitAt_eq
        exact if_neg fun hd => hfrac (by simp [hpoint, hdigit, hd])
      · rfl
    rw [if_neg hfrac, hf]
    exact ⟨pos, h, rfl⟩

theorem Left.left_exponent (h : Left source pos cs) :
    Left source
      (if (isAt source pos 'e' || isAt source pos 'E') &&
          (isDigitAt source (pos + 1) || isAt source (pos + 1) '+') then digitsEnd source (pos + 2)
        else pos) (cs.drop (exponent cs)) := by
  by_cases hexp : (isAt source pos 'e' || isAt source pos 'E') &&
      (isDigitAt source (pos + 1) || isAt source (pos + 1) '+')
  · rw [if_pos hexp]
    simp only [Bool.and_eq_true, Bool.or_eq_true] at hexp
    obtain ⟨e, cs, rfl, he, h'⟩ : ∃ e cs', cs = e :: cs' ∧ (e = 'e' ∨ e = 'E') ∧ Left source (pos + 1) cs' := by
      rcases hexp.1 with hat | hat
      · obtain ⟨cs', rfl, h'⟩ := h.exists_cons (by decide) (by decide) hat
        exact ⟨_, cs', rfl, .inl rfl, h'⟩
      · obtain ⟨cs', rfl, h'⟩ := h.exists_cons (by decide) (by decide) hat
        exact ⟨_, cs', rfl, .inr rfl, h'⟩
    obtain ⟨d, cs, rfl, hd, h''⟩ : ∃ d cs', cs = d :: cs' ∧ (d.isDigit ∨ d = '+') ∧
        Left source (pos + 2) cs' := by
      rcases hexp.2 with hat | hat
      · obtain ⟨d, cs', rfl, hd, h''⟩ := h'.exists_digit hat
        exact ⟨d, cs', rfl, .inl hd, h''⟩
      · obtain ⟨cs', rfl, h''⟩ := h'.exists_cons (by decide) (by decide) hat
        exact ⟨_, cs', rfl, .inr rfl, h''⟩
    have hx : exponent (e :: d :: cs) = (cs.takeWhile Ascii.isDigitRest).length + 1 + 1 := by
      rw [exponent, if_pos (by simpa using ⟨he, hd⟩)]
      omega
    rw [hx, List.drop_succ_cons, List.drop_succ_cons, drop_length_takeWhile]
    exact h''.left_digitsEnd
  · have hx : exponent cs = 0 := by
      unfold exponent
      split
      · rename_i e d cs
        refine if_neg fun hed => hexp ?_
        obtain ⟨he, hd⟩ : (e = 'e' ∨ e = 'E') ∧ (d.isDigit ∨ d = '+') := by simpa using hed
        have hplain : IsPlain e := by rcases he with rfl | rfl <;> decide
        have hsmall := h.isAt_eq (d := 'e') (by decide) (by decide)
        have hbig := h.isAt_eq (d := 'E') (by decide) (by decide)
        have hdigit := (h.tail_plain hplain).isDigitAt_eq
        have hplus := (h.tail_plain hplain).isAt_eq (d := '+') (by decide) (by decide)
        simpa [hsmall, hbig, hdigit, hplus] using ⟨he, hd⟩
      · rfl
    rw [if_neg hexp, hx]
    exact h

theorem numberShape_decimal (h : (cs.dropWhile Ascii.isDigitRest).head? ≠ some '#') :
    numberShape cs =
      .token (if fraction (cs.dropWhile Ascii.isDigitRest) = 0 then .intLiteral else .realLiteral)
        ((cs.takeWhile Ascii.isDigitRest).length + fraction (cs.dropWhile Ascii.isDigitRest) +
          exponent ((cs.dropWhile Ascii.isDigitRest).drop (fraction (cs.dropWhile Ascii.isDigitRest)))) := by
  unfold numberShape
  simp only [drop_length_takeWhile]
  split
  · rename_i rest hrest
    exact absurd (by rw [hrest]; rfl) h
  · rfl

theorem Left.reads_numberAt (h : Left source pos (c :: cs)) (hc : c.isDigit) :
    (numberAt source pos).Reads source cs (numberShape cs) := by
  have hdigits := h.left_digitsEnd
  rw [List.dropWhile_cons, if_pos (by simp [Ascii.isDigitRest, hc])] at hdigits
  have hdrop : ∀ k, cs.drop ((cs.takeWhile Ascii.isDigitRest).length + k) =
      (cs.dropWhile Ascii.isDigitRest).drop k := fun k => by
    rw [← List.drop_drop, drop_length_takeWhile]
  unfold numberAt
  dsimp only
  generalize digitsEnd source pos = mid at hdigits ⊢
  by_cases hbased : isAt source mid '#'
  · obtain ⟨rest, hrest, h'⟩ := hdigits.exists_cons (by decide) (by decide) hbased
    have hend : Left source (CharClass.basedRest.pass source (mid + 1)) (rest.dropWhile Ascii.isBasedRest) :=
      h'.left_pass fun _ => isPlain_of_isBasedRest
    simp only [numberShape, drop_length_takeWhile, if_pos hbased, hrest]
    by_cases hclosed : isAt source (CharClass.basedRest.pass source (mid + 1)) '#'
    · obtain ⟨back, hback, h''⟩ := hend.exists_cons (by decide) (by decide) hclosed
      simp only [if_pos hclosed, hback]
      refine ⟨rfl, rfl, ?_⟩
      show Left source _ (cs.drop (_ + 1 + _ + 1))
      rw [Nat.add_assoc, Nat.add_assoc, hdrop, hrest, Nat.add_comm 1, List.drop_succ_cons, ← List.drop_drop,
        drop_length_takeWhile, hback]
      exact h''
    · rw [if_neg hclosed]
      split
      · rename_i back hback
        exact absurd (by simp [hend.isAt_eq (d := '#') (by decide) (by decide), hback]) hclosed
      · refine ⟨rfl, rfl, ?_⟩
        show Left source _ (cs.drop (_ + 1 + _))
        rw [Nat.add_assoc, hdrop, hrest, Nat.add_comm 1, List.drop_succ_cons, drop_length_takeWhile]
        exact hend
  · obtain ⟨stop, hstop, hfraction⟩ := hdigits.left_fraction
    have hdecimal : (cs.dropWhile Ascii.isDigitRest).head? ≠ some '#' := fun hhead =>
      hbased (by rw [hdigits.isAt_eq (by decide) (by decide), hhead]; rfl)
    rw [if_neg hbased, hfraction, numberShape_decimal hdecimal]
    refine ⟨rfl, rfl, ?_⟩
    show Left source _ (cs.drop (_ + _ + _))
    rw [Nat.add_assoc, hdrop, ← List.drop_drop]
    exact hstop.left_exponent

theorem pairSign_eq_none {e : Char} (h : ¬ (IsPlain c ∧ IsPlain e ∧ e ≠ '\x00')) : pairSign c e = none := by
  refine Option.eq_none_iff_forall_ne_some.2 fun sign hsign => h ?_
  unfold pairSign at hsign
  split at hsign <;> cases hsign <;> decide

theorem singleSign_eq_none (h : ¬ IsPlain c) : singleSign c = none := by
  refine Option.eq_none_iff_forall_ne_some.2 fun sign hsign => h ?_
  unfold singleSign at hsign
  split at hsign <;> cases hsign <;> decide

theorem Left.pairSign_eq (h : Left source pos (c :: cs)) :
    pairSign (Char.ofUInt8 (byteAt source pos)) (Char.ofUInt8 (byteAt source (pos + 1))) =
      cs.head?.bind (pairSign c) := by
  by_cases hc : IsPlain c
  · rw [h.byteAt_plain hc, ofUInt8_toUInt8 hc]
    cases cs with
    | nil =>
      have hzero : byteAt source (pos + 1) = 0 := (h.tail_plain hc).byteAt_nil 0
      rw [hzero]
      exact pairSign_eq_none fun hp => hp.2.2 rfl
    | cons d cs =>
      have h' := h.tail_plain hc
      show _ = pairSign c d
      by_cases hd : IsPlain d
      · rw [h'.byteAt_plain hd, ofUInt8_toUInt8 hd]
      · have hwide : 128 ≤ byteAt source (pos + 1) := h'.byteAt_wide hd d.utf8Size_pos
        rw [pairSign_eq_none fun hp => hd hp.2.1,
          pairSign_eq_none fun hp => not_isPlain_ofUInt8 hwide hp.2.1]
  · have hwide : 128 ≤ byteAt source pos := h.byteAt_wide hc c.utf8Size_pos
    rw [pairSign_eq_none fun hp => not_isPlain_ofUInt8 hwide hp.1]
    cases cs with
    | nil => rfl
    | cons d cs => exact (pairSign_eq_none fun hp => hc hp.1).symm

theorem Left.singleSign_eq (h : Left source pos (c :: cs)) :
    singleSign (Char.ofUInt8 (byteAt source pos)) = singleSign c := by
  by_cases hc : IsPlain c
  · rw [h.byteAt_plain hc, ofUInt8_toUInt8 hc]
  · have hwide : 128 ≤ byteAt source pos := h.byteAt_wide hc c.utf8Size_pos
    rw [singleSign_eq_none hc, singleSign_eq_none (not_isPlain_ofUInt8 hwide)]

theorem Left.utf8Width_byteAt (h : Left source pos (c :: cs)) : utf8Width (byteAt source pos) = c.utf8Size := by
  have hbyte := h.byteAt_eq 0
  obtain ⟨b, bs, hbs⟩ := List.exists_cons_of_ne_nil (String.utf8EncodeChar_ne_nil (c := c))
  have hwidth := utf8Width_eq (c := c)
  rw [List.flatMap_cons, hbs] at hbyte
  rw [hbs] at hwidth
  rw [show byteAt source pos = b from hbyte]
  exact Option.some_inj.1 hwidth

theorem Left.reads_signAt (h : Left source pos (c :: cs)) :
    (signAt source pos).Reads source cs (signShape c cs) := by
  unfold signAt signShape
  simp only [h.pairSign_eq, h.singleSign_eq, h.utf8Width_byteAt]
  cases hpair : cs.head?.bind (pairSign c) with
  | some sign =>
    obtain ⟨d, hhead, hsign⟩ := Option.bind_eq_some_iff.1 hpair
    obtain ⟨cs, rfl⟩ := List.head?_eq_some_iff.1 hhead
    obtain ⟨hc, hd, -⟩ : IsPlain c ∧ IsPlain d ∧ d ≠ '\x00' := by
      by_contra hplain
      rw [pairSign_eq_none hplain] at hsign
      cases hsign
    exact ⟨rfl, rfl, (h.tail_plain hc).tail_plain hd⟩
  | none =>
    cases hsingle : singleSign c with
    | some sign =>
      have hc : IsPlain c := by
        by_contra hplain
        rw [singleSign_eq_none hplain] at hsingle
        cases hsingle
      exact ⟨rfl, rfl, h.tail_plain hc⟩
    | none =>
      refine ⟨rfl, rfl, ?_⟩
      show Left source (min (pos + c.utf8Size) source.size) cs
      rw [Nat.min_eq_left h.tail.le_size]
      exact h.tail

theorem Left.isCharLiteral_eq (h : Left source pos (c :: cs)) :
    (isAt source pos '\x27' && isAt source (pos + 2) '\x27') = isCharLiteral c cs := by
  rw [h.isAt_eq (by decide) (by decide)]
  by_cases hc : c = '\x27'
  · subst hc
    have h' := h.tail_plain (by decide)
    rw [List.head?_cons, beq_self_eq_true, Bool.true_and]
    cases cs with
    | nil =>
      rw [isAt, h'.byteAt_nil 1]
      rfl
    | cons d cs =>
      by_cases hd : IsPlain d
      · rw [(h'.tail_plain hd).isAt_eq (by decide) (by decide)]
        cases cs with
        | nil => rfl
        | cons e cs => simp [isCharLiteral, show d.utf8Size = 1 from hd, beq_eq_decide]
      · have hsize : 1 < d.utf8Size := Nat.lt_of_le_of_ne d.utf8Size_pos (Ne.symm hd)
        rw [isAt_wide (h'.byteAt_wide hd hsize) (by decide)]
        cases cs with
        | nil => rfl
        | cons e cs => simp [isCharLiteral, show d.utf8Size ≠ 1 from hd]
  · rw [List.head?_cons, beq_false_of_ne (by simpa using hc), Bool.false_and]
    unfold isCharLiteral
    split
    · simp [hc]
    · rfl

theorem exists_of_isCharLiteral (h : isCharLiteral c cs) :
    ∃ d cs', c = '\x27' ∧ IsPlain d ∧ cs = d :: '\x27' :: cs' := by
  unfold isCharLiteral at h
  split at h
  · rename_i d e cs
    obtain ⟨⟨hc, hd⟩, rfl⟩ : (c = '\x27' ∧ d.utf8Size = 1) ∧ e = '\x27' := by simpa using h
    exact ⟨d, cs, hc, hd, rfl⟩
  · cases h

theorem Left.reads_tokenAt (h : Left source pos (c :: cs)) (prev : Option TokenKind) :
    (tokenAt source prev pos).Reads source cs (tokenShape prev c cs) := by
  have hchar : (isAt source pos '\x27' && !tickIsAttribute prev && isAt source (pos + 2) '\x27') =
      (isCharLiteral c cs && !tickIsAttribute prev) := by
    rw [Bool.and_right_comm, h.isCharLiteral_eq]
  have hword : Ascii.isWordStart (Char.ofUInt8 (byteAt source pos)) = Ascii.isWordStart c :=
    h.any_byteAt (fun _ hc => isPlain_of_isAlphanum (by simp_all [Ascii.isWordStart, Char.isAlphanum])) rfl
  have hdigit : isDigitAt source pos = c.isDigit := h.isDigitAt_eq
  have hquote : isAt source pos '\x22' = true ↔ c = '\x22' := by
    rw [h.isAt_eq (by decide) (by decide), List.head?_cons, beq_iff_eq, Option.some_inj]
  unfold tokenAt tokenShape
  simp only [hchar, hword, hdigit, hquote]
  split
  · rename_i hliteral
    obtain ⟨d, cs, rfl, hd, rfl⟩ := exists_of_isCharLiteral (Bool.and_eq_true _ _ ▸ hliteral).1
    exact ⟨rfl, rfl, ((h.tail_plain (by decide)).tail_plain hd).tail_plain (by decide)⟩
  · split
    · exact h.reads_wordAt ‹_›
    · split
      · exact h.reads_numberAt ‹_›
      · split
        · rename_i hc
          exact Left.reads_stringAt (n := 0) (h.tail_plain (hc ▸ by decide)) _
        · exact h.reads_signAt

/-! ### From piece to piece -/

/-- The first piece ends where the reader goes on. -/
theorem Left.cut_eq {prev : Option TokenKind} {s : Shape} {stop : Nat} (h : Left source pos (c :: cs))
    (hs : shape prev c cs = s) (hstop : Left source stop (cs.drop s.more)) :
    ∃ p, cut prev pos 0 (c :: cs) = p :: cut (s.kind <|> prev) stop 0 (cs.drop s.more) ∧
      p.kind = s.kind ∧ p.fault = s.fault ∧ String.ofList p.text = textAt source pos stop ∧
      ∀ file, p.span file = ⟨file, pos, stop⟩ := by
  have h' : Left source pos ((c :: cs.take s.more) ++ cs.drop s.more) := by
    rwa [List.cons_append, List.take_append_drop]
  have hpos := h'.pos_eq hstop
  refine ⟨⟨s.kind, c :: cs.take s.more, pos, s.fault⟩, ?_, rfl, rfl, (h'.textAt_eq hstop).symm, fun file => ?_⟩
  · rw [cut_cons, hs, ← hpos]
  · rw [hpos]
    rfl

variable (file : Nat)

def tokensOf (ps : List Piece) : List Token := ps.filterMap (Piece.token? file)

def faultsOf (ps : List Piece) : List Diagnostic := ps.filterMap (Piece.diagnostic? file)

/-- A blank or comment in front adds no token, and its fault if it has one. -/
theorem Left.cut_gap {prev : Option TokenKind} {s : Shape} {stop : Nat} (h : Left source pos (c :: cs))
    (hs : shape prev c cs = s) (hstop : Left source stop (cs.drop s.more)) (hgap : s.kind = none) :
    tokensOf file (cut prev pos 0 (c :: cs)) = tokensOf file (cut prev stop 0 (cs.drop s.more)) ∧
      faultsOf file (cut prev pos 0 (c :: cs)) = (s.fault.map (·.toDiagnostic ⟨file, pos, stop⟩)).toList ++
        faultsOf file (cut prev stop 0 (cs.drop s.more)) := by
  obtain ⟨p, hcut, hkind, hfault, -, hspan⟩ := h.cut_eq hs hstop
  rw [hcut, hgap]
  refine ⟨?_, ?_⟩
  · simp [tokensOf, Piece.token?, hkind, hgap]
  · cases hf : s.fault <;> simp [faultsOf, Piece.diagnostic?, hfault, hf, hspan]

theorem Left.cut_blanks (h : Left source pos cs) (prev : Option TokenKind) :
    tokensOf file (cut prev pos 0 cs) =
        tokensOf file (cut prev (CharClass.blanks.pass source pos) 0 (cs.dropWhile Ascii.isBlank)) ∧
      faultsOf file (cut prev pos 0 cs) =
        faultsOf file (cut prev (CharClass.blanks.pass source pos) 0 (cs.dropWhile Ascii.isBlank)) := by
  induction cs generalizing pos with
  | nil => exact ⟨rfl, rfl⟩
  | cons c cs ih =>
    have hfirst : CharClass.blanks.isAt source pos = Ascii.isBlank c :=
      h.any_byteAt (fun _ => isPlain_of_isBlank) rfl
    rw [CharClass.pass, List.dropWhile_cons]
    by_cases hc : Ascii.isBlank c
    · rw [dif_pos (hfirst.trans hc), if_pos hc]
      have h' := h.tail_plain (isPlain_of_isBlank hc)
      have hs : shape prev c cs = .gap 0 := by simp [shape, hc]
      obtain ⟨htokens, hfaults⟩ := h.cut_gap file hs h' rfl
      exact ⟨htokens.trans (ih h').1, hfaults.trans (ih h').2⟩
    · rw [dif_neg (by rwa [hfirst]), if_neg hc]
      exact ⟨rfl, rfl⟩

/-- No blank and no comment stands in front of `cs`. -/
def NoGap (cs : List Char) : Prop :=
  ∀ c cs', cs = c :: cs' → Ascii.isBlank c = false ∧ commentShape? c cs' = none

theorem Left.noGap {start : Nat} (h : Left source start (cs.dropWhile Ascii.isBlank))
    (hline : ¬ (isAt source start '-' && isAt source (start + 1) '-') = true)
    (hblock : ¬ (isAt source start '/' && isAt source (start + 1) '*') = true) :
    NoGap (cs.dropWhile Ascii.isBlank) := by
  intro c cs' hcs
  have hblank : Ascii.isBlank c = false := by
    have hhead := List.head?_dropWhile_not Ascii.isBlank cs
    rw [hcs] at hhead
    simpa using hhead
  refine ⟨hblank, ?_⟩
  rw [hcs] at h
  cases cs' with
  | nil => rfl
  | cons d cs' =>
    have hpair : ∀ x y : Char, IsPlain x → IsPlain y → x ≠ '\x00' → y ≠ '\x00' →
        ¬ (isAt source start x && isAt source (start + 1) y) = true → (c = x && d = y) = false := by
      intro x y hx hy hx' hy' hnone
      refine Bool.eq_false_iff.2 fun heq => hnone ?_
      obtain ⟨rfl, rfl⟩ : c = x ∧ d = y := by simpa using heq
      rw [h.isAt_eq hx hx', (h.tail_plain hx).isAt_eq hy hy']
      simp
    rw [commentShape?, hpair _ _ (by decide) (by decide) (by decide) (by decide) hline,
      hpair _ _ (by decide) (by decide) (by decide) (by decide) hblock]
    rfl

theorem shape_line (prev : Option TokenKind) (cs : List Char) :
    shape prev '-' ('-' :: cs) = .gap (1 + (cs.takeWhile (· ≠ '\n')).length) := by
  simp [shape, commentShape?, Ascii.isBlank]

theorem shape_block (prev : Option TokenKind) (cs : List Char) : shape prev '/' ('*' :: cs) =
    { kind := none, more := 1 + (blockComment cs).1,
      fault := if (blockComment cs).2 then none else some .unterminatedComment } := by
  simp [shape, commentShape?, Ascii.isBlank]

/-- Where the reader goes on behind blanks and comments no further one stands, and nothing but their faults
was passed over. -/
theorem Left.skip_spec (h : Left source pos cs) (prev : Option TokenKind) :
    ∃ rest, Left source (skip file source pos).1 rest ∧ NoGap rest ∧
      tokensOf file (cut prev pos 0 cs) = tokensOf file (cut prev (skip file source pos).1 0 rest) ∧
      faultsOf file (cut prev pos 0 cs) =
        (skip file source pos).2 ++ faultsOf file (cut prev (skip file source pos).1 0 rest) := by
  fun_induction skip file source pos generalizing cs with
  | case1 pos start hline =>
    rename_i ih
    obtain ⟨htokens, hfaults⟩ := h.cut_blanks file prev
    have hstart : Left source start (cs.dropWhile Ascii.isBlank) := h.left_pass fun _ => isPlain_of_isBlank
    rw [Bool.and_eq_true] at hline
    obtain ⟨cs', hcs', h'⟩ := hstart.exists_cons (by decide) (by decide) hline.1
    obtain ⟨cs', rfl, -⟩ := h'.exists_cons (by decide) (by decide) hline.2
    rw [hcs'] at htokens hfaults hstart
    have hdrop : ('-' :: cs').drop (1 + (cs'.takeWhile (· ≠ '\n')).length) = cs'.dropWhile (· ≠ '\n') := by
      rw [Nat.add_comm, List.drop_succ_cons, drop_length_takeWhile]
    have hend : Left source (lineEnd source start) (cs'.dropWhile (· ≠ '\n')) := hstart.left_lineEnd
    obtain ⟨htokens', hfaults'⟩ := hstart.cut_gap file (shape_line prev cs') (hdrop.symm ▸ hend) rfl
    obtain ⟨rest, hrest, hnone, htokens'', hfaults''⟩ := ih hend
    refine ⟨rest, hrest, hnone, ?_, ?_⟩
    · rw [← htokens'', htokens, htokens']
      exact congrArg (fun x => tokensOf file (cut prev _ 0 x)) hdrop
    · rw [← hfaults'', hfaults, hfaults']
      exact congrArg (fun x => faultsOf file (cut prev _ 0 x)) hdrop
  | case2 pos start hline hblock comment skipped =>
    rename_i ih
    obtain ⟨htokens, hfaults⟩ := h.cut_blanks file prev
    have hstart : Left source start (cs.dropWhile Ascii.isBlank) := h.left_pass fun _ => isPlain_of_isBlank
    rw [Bool.and_eq_true] at hblock
    obtain ⟨cs', hcs', h'⟩ := hstart.exists_cons (by decide) (by decide) hblock.1
    obtain ⟨cs', rfl, h''⟩ := h'.exists_cons (by decide) (by decide) hblock.2
    rw [hcs'] at htokens hfaults hstart
    have hdrop : ('*' :: cs').drop (1 + (blockComment cs').1) = cs'.drop (blockComment cs').1 := by
      rw [Nat.add_comm, List.drop_succ_cons]
    obtain ⟨hclosed, hend⟩ := h''.left_blockEnd
    obtain ⟨htokens', hfaults'⟩ := hstart.cut_gap file (shape_block prev cs') (hdrop.symm ▸ hend) rfl
    obtain ⟨rest, hrest, hnone, htokens'', hfaults''⟩ := ih hend
    refine ⟨rest, hrest, hnone, ?_, ?_⟩
    · rw [htokens, htokens']
      refine Eq.trans ?_ htokens''
      exact congrArg (fun x => tokensOf file (cut prev _ 0 x)) hdrop
    · rw [hfaults, hfaults', hdrop, hfaults'']
      show _ = (if comment.2 then skipped.2 else _ :: skipped.2) ++ _
      rw [show comment.2 = (blockComment cs').2 from hclosed]
      cases (blockComment cs').2 <;> rfl
  | case3 pos start hline =>
    rename_i hblock
    obtain ⟨htokens, hfaults⟩ := h.cut_blanks file prev
    have hstart : Left source start (cs.dropWhile Ascii.isBlank) := h.left_pass fun _ => isPlain_of_isBlank
    exact ⟨_, hstart, hstart.noGap hline hblock, htokens, hfaults⟩

theorem Left.lexFrom_eq (h : Left source pos cs) (prev : Option TokenKind) :
    lexFrom file source prev pos =
      (tokensOf file (cut prev pos 0 cs) ++ [⟨.eof, "", ⟨file, source.size, source.size⟩⟩],
        faultsOf file (cut prev pos 0 cs)) := by
  fun_induction lexFrom file source prev pos generalizing cs with
  | case1 prev pos gap =>
    rename_i hend
    obtain ⟨rest, hrest, -, htokens, hfaults⟩ := h.skip_spec file prev
    obtain rfl : rest = [] := by
      cases rest with
      | nil => rfl
      | cons c rest => exact absurd hrest.lt_size (Nat.not_lt.2 hend)
    have hsize : source.size = gap.1 := hrest.size_eq
    rw [htokens, hfaults, hsize]
    simp [cut, tokensOf, faultsOf, gap]
  | case2 prev pos gap hlt lexeme span tail =>
    rename_i ih
    obtain ⟨rest, hrest, hnone, htokens, hfaults⟩ := h.skip_spec file prev
    cases rest with
    | nil =>
      have hsize : source.size = gap.1 := hrest.size_eq
      omega
    | cons c rest =>
      obtain ⟨hblank, hcomment⟩ := hnone c rest rfl
      have hs : shape prev c rest = tokenShape prev c rest := by simp [shape, hblank, hcomment]
      obtain ⟨hkind, hfault, hleft⟩ := hrest.reads_tokenAt prev
      obtain ⟨p, hcut, hpkind, hpfault, htext, hspan⟩ := hrest.cut_eq hs hleft
      rw [hkind] at hpkind hcut
      rw [hfault] at hpfault
      have htoken : p.token? file = some ⟨lexeme.kind, textAt source gap.1 lexeme.stop, span⟩ := by
        rw [Piece.token?, hpkind, htext, hspan]
        rfl
      have hdiagnostic : p.diagnostic? file = lexeme.fault.map (·.toDiagnostic span) := by
        rw [Piece.diagnostic?, hpfault, hspan]
      have hback : tail = _ := ih hleft
      rw [htokens, hfaults, hcut, hback]
      refine Prod.ext (congrArg (· ++ _) (List.filterMap_cons_some htoken).symm) ?_
      simp only [faultsOf, List.filterMap_cons, hdiagnostic, List.append_assoc]
      cases lexeme.fault <;> rfl

/-- The reader of bytes finds the pieces of a text. -/
theorem lex_eq_pieces (text : String) : lex file text =
    ((pieces text).filterMap (Piece.token? file) ++ [eof file text],
      (pieces text).filterMap (Piece.diagnostic? file)) := by
  have h := left_zero text
  have hsize := h.size_eq
  rw [lex, h.lexFrom_eq file none, hsize, Nat.zero_add]
  rfl

end

end Lexer

end HdlLint
