import Mathlib.Data.List.TakeWhile
import Mathlib.Order.Bounds.Basic
import Mathlib.Data.Set.Insert
import HdlLint.Proofs.Comparison
import HdlLint.Proofs.StableOrder
import HdlLint.Proofs.TextBytes

/-!
# Lines and columns

The line of an offset is told by the line feeds among the bytes before it, and its column by the place
just past the last of them (`Resolves`). `lineColumn` counts in words, and both numbers are right as long
as they are words: only at the greatest offset can one of them be too great (`Wraps`). Offsets in order
have lines and columns in order, so findings in one file that are put in the order of their locations are
in the order of their offsets (`lineColumn_resolves`).
-/

namespace HdlLint

namespace SourceFile

/-! ### Line feeds -/

def bytes (f : SourceFile) : List UInt8 := Utf8.bytes f.text

/-- The number of line feeds among the bytes before an offset. -/
def feedsBefore (f : SourceFile) (offset : Nat) : Nat := (f.bytes.take offset).count Utf8.lineFeed

/-- Where a line starts, up to an offset: at the start of the file, and just past each line feed. -/
def startsUpTo (f : SourceFile) (offset : Nat) : Set Nat :=
  {p | p = 0 ∨ ∃ i < offset, f.bytes[i]? = some Utf8.lineFeed ∧ p = i + 1}

/-- The offsets just past each line feed of some bytes, of which the first one is at offset `pos`. -/
def pastFeeds (pos : Nat) : List UInt8 → List Nat
  | [] => []
  | b :: bs => if b = Utf8.lineFeed then (pos + 1) :: pastFeeds (pos + 1) bs else pastFeeds (pos + 1) bs

theorem pastFeeds_append (pos : Nat) (bs cs : List UInt8) :
    pastFeeds pos (bs ++ cs) = pastFeeds pos bs ++ pastFeeds (pos + bs.length) cs := by
  induction bs generalizing pos with
  | nil => rfl
  | cons b bs ih =>
    have hpos : pos + (b :: bs).length = pos + 1 + bs.length := by
      rw [List.length_cons]
      omega
    rw [List.cons_append, pastFeeds, pastFeeds, ih, hpos]
    split_ifs
    · rfl
    · rfl

theorem pastFeeds_of_not_mem {bs : List UInt8} (h : Utf8.lineFeed ∉ bs) (pos : Nat) :
    pastFeeds pos bs = [] := by
  induction bs generalizing pos with
  | nil => rfl
  | cons b bs ih =>
    rw [List.mem_cons, not_or] at h
    rw [pastFeeds, if_neg (Ne.symm h.1), ih h.2]

theorem lineStartsFrom_eq (pos : Nat) (cs : List Char) :
    lineStartsFrom pos cs = pastFeeds pos (cs.flatMap String.utf8EncodeChar) := by
  induction cs generalizing pos with
  | nil => rfl
  | cons c cs ih =>
    rw [List.flatMap_cons, pastFeeds_append, String.length_utf8EncodeChar, ← ih, lineStartsFrom]
    by_cases hc : c = '\n'
    · subst hc
      rfl
    · rw [if_neg hc, pastFeeds_of_not_mem (mt Utf8.lineFeed_mem_encodeChar.1 hc), List.nil_append]

theorem lineStarts_eq (f : SourceFile) : f.lineStarts = 0 :: pastFeeds 0 f.bytes := by
  rw [lineStarts, lineStartsFrom_eq, bytes, Utf8.bytes_eq_flatMap]

theorem length_takeWhile_pastFeeds (pos offset : Nat) (bs : List UInt8) :
    ((pastFeeds pos bs).takeWhile (· ≤ offset)).length =
      (bs.take (offset - pos)).count Utf8.lineFeed := by
  induction bs generalizing pos with
  | nil => simp [pastFeeds]
  | cons b bs ih =>
    have hnext := ih (pos + 1)
    by_cases hpos : pos + 1 ≤ offset
    · have hsucc : offset - pos = offset - (pos + 1) + 1 := by omega
      rw [hsucc, List.take_succ_cons, List.count_cons, ← hnext, pastFeeds]
      by_cases hb : b = Utf8.lineFeed
      · simp [hb, hpos]
      · simp [hb]
    · -- the line feeds left are all past the offset
      have hzero : offset - (pos + 1) = 0 := by omega
      rw [hzero, List.take_zero, List.count_nil, List.length_eq_zero_iff] at hnext
      have hzero' : offset - pos = 0 := by omega
      rw [hzero', List.take_zero, List.count_nil, List.length_eq_zero_iff, pastFeeds]
      split_ifs
      · simp [hpos]
      · exact hnext

/-- The last line that starts up to an offset, where the one before the bytes starts at `p`. -/
theorem isGreatest_getLastD (offset : Nat) (bs : List UInt8) {p pos : Nat} (hp : p ≤ pos) :
    IsGreatest {q | q = p ∨ ∃ i, pos + i < offset ∧ bs[i]? = some Utf8.lineFeed ∧ q = pos + i + 1}
      (((pastFeeds pos bs).takeWhile (· ≤ offset)).getLastD p) := by
  induction bs generalizing p pos with
  | nil => simp [pastFeeds]
  | cons b bs ih =>
    have hshift : ∀ {i}, (b :: bs)[i + 1]? = bs[i]? := List.getElem?_cons_succ
    rw [pastFeeds]
    by_cases hb : b = Utf8.lineFeed
    · rw [if_pos hb]
      by_cases hpos : pos + 1 ≤ offset
      · rw [List.takeWhile_cons_of_pos (by simpa using hpos), List.getLastD_cons]
        obtain ⟨hmem, hle⟩ := ih (Nat.le_refl (pos + 1))
        refine ⟨?_, ?_⟩
        · rcases hmem with hfirst | ⟨i, hi, hfeed, heq⟩
          · exact .inr ⟨0, by omega, by simp [hb], by omega⟩
          · exact .inr ⟨i + 1, by omega, hshift.trans hfeed, by omega⟩
        · have hfirst : pos + 1 ≤ _ := hle (.inl rfl)
          rintro q (rfl | ⟨i, hi, hfeed, rfl⟩)
          · omega
          · rcases i with _ | i
            · omega
            · exact hle (.inr ⟨i, by omega, hshift.symm.trans hfeed, by omega⟩)
      · rw [List.takeWhile_cons_of_neg (by simpa using hpos)]
        refine ⟨.inl rfl, ?_⟩
        rintro q (rfl | ⟨i, hi, -, rfl⟩)
        · exact Nat.le_refl _
        · omega
    · rw [if_neg hb]
      obtain ⟨hmem, hle⟩ := @ih p (pos + 1) (by omega)
      refine ⟨?_, ?_⟩
      · rcases hmem with hfirst | ⟨i, hi, hfeed, heq⟩
        · exact .inl hfirst
        · exact .inr ⟨i + 1, by omega, hshift.trans hfeed, by omega⟩
      · rintro q (rfl | ⟨i, hi, hfeed, rfl⟩)
        · exact hle (.inl rfl)
        · rcases i with _ | i
          · exact absurd (Option.some.inj hfeed) hb
          · exact hle (.inr ⟨i, by omega, hshift.symm.trans hfeed, by omega⟩)

/-! ### Looking up a line -/

/-- What a search gives: an index where the number stands, or one with the smaller numbers in front of it
and the greater ones behind. -/
def Found (xs : Array Nat) (x : Nat) : Except Nat Nat → Prop
  | .ok i => xs[i]? = some x
  | .error i => i ≤ xs.size ∧ (∀ j y, j < i → xs[j]? = some y → y < x) ∧
    ∀ j y, i ≤ j → xs[j]? = some y → x < y

/-- Ascending numbers have ascending indices. -/
theorem lt_of_getElem? {xs : Array Nat} (hxs : xs.toList.Pairwise (· < ·)) {i j y z : Nat} (hij : i < j)
    (hy : xs[i]? = some y) (hz : xs[j]? = some z) : y < z := by
  obtain ⟨hi, rfl⟩ := Array.getElem?_eq_some_iff.1 hy
  obtain ⟨hj, rfl⟩ := Array.getElem?_eq_some_iff.1 hz
  exact List.pairwise_iff_getElem.1 hxs i j hi hj hij

/-- Each half of the numbers that a search leaves out is on one side of what it looks for. -/
theorem search_found {xs : Array Nat} {x lo hi : Nat} (hxs : xs.toList.Pairwise (· < ·)) (h : hi ≤ xs.size)
    (hle : lo ≤ hi) (hlo : ∀ j y, j < lo → xs[j]? = some y → y < x)
    (hhi : ∀ j y, hi ≤ j → xs[j]? = some y → x < y) : Found xs x (search xs x lo hi h) := by
  fun_induction search with
  | case1 lo hi h hlt mid hmid heq => exact heq ▸ Array.getElem?_eq_getElem _
  | case2 lo hi h hlt mid hmid hne hless ih =>
    refine ih hmid (fun j y hj hy => ?_) hhi
    rcases Nat.lt_or_eq_of_le (Nat.le_of_lt_succ hj) with hj | rfl
    · exact (lt_of_getElem? hxs hj hy (Array.getElem?_eq_getElem _)).trans hless
    · rw [Array.getElem?_eq_getElem (hmid.trans_le h)] at hy
      exact Option.some.inj hy ▸ hless
  | case3 lo hi h hlt mid hmid hne hless ih =>
    have hgreater : x < xs[mid] := lt_of_le_of_ne (not_lt.1 hless) (Ne.symm hne)
    refine ih (by omega) hlo fun j y hj hy => ?_
    rcases Nat.lt_or_eq_of_le hj with hj | rfl
    · exact hgreater.trans (lt_of_getElem? hxs hj (Array.getElem?_eq_getElem _) hy)
    · rw [Array.getElem?_eq_getElem (hmid.trans_le h)] at hy
      exact Option.some.inj hy ▸ hgreater
  | case4 lo hi h hge => exact ⟨hle.trans h, hlo, fun j y hj => hhi j y ((not_lt.1 hge).trans hj)⟩

theorem takeWhile_eq_take {xs : List Nat} {x n : Nat} (hfront : ∀ j y, j < n → xs[j]? = some y → y ≤ x)
    (hback : ∀ j y, n ≤ j → xs[j]? = some y → x < y) : xs.takeWhile (· ≤ x) = xs.take n := by
  induction xs generalizing n with
  | nil => simp
  | cons y ys ih =>
    cases n with
    | zero =>
      have hy := hback 0 y (Nat.le_refl 0) rfl
      rw [List.takeWhile_cons_of_neg (by simpa using hy), List.take_zero]
    | succ n =>
      have hy := hfront 0 y (Nat.succ_pos n) rfl
      rw [List.takeWhile_cons_of_pos (by simpa using hy), List.take_succ_cons,
        @ih n (fun j z hj => hfront (j + 1) z (by omega)) fun j z hj => hback (j + 1) z (by omega)]

/-- The line of an offset is the last one that starts up to it. -/
theorem lineIndex_spec {starts : Array Nat} (hstarts : starts.toList.Pairwise (· < ·))
    (hfirst : starts[0]? = some 0) (offset : Nat) :
    lineIndex starts offset < starts.size ∧
      starts.toList.takeWhile (· ≤ offset) = starts.toList.take (lineIndex starts offset + 1) := by
  have hfound : Found starts offset (search starts offset 0 starts.size (Nat.le_refl _)) := by
    refine search_found hstarts _ (Nat.zero_le _) (fun j y hj => absurd hj (Nat.not_lt_zero j)) ?_
    intro j y hj hy
    rw [Array.getElem?_eq_none hj] at hy
    cases hy
  unfold lineIndex
  cases hsearch : search starts offset 0 starts.size (Nat.le_refl _) with
  | ok i =>
    rw [hsearch] at hfound
    refine ⟨(Array.getElem?_eq_some_iff.1 hfound).1, takeWhile_eq_take (fun j y hj hy => ?_) fun j y hj hy => ?_⟩
    · rw [Array.getElem?_toList] at hy
      rcases Nat.lt_or_eq_of_le (Nat.le_of_lt_succ hj) with hj | rfl
      · exact (lt_of_getElem? hstarts hj hy hfound).le
      · exact (Option.some.inj (hy.symm.trans hfound)).le
    · rw [Array.getElem?_toList] at hy
      exact lt_of_getElem? hstarts hj hfound hy
  | error i =>
    rw [hsearch] at hfound
    obtain ⟨hsize, hfront, hback⟩ := hfound
    have hpos : 0 < i := Nat.pos_of_ne_zero fun hzero =>
      absurd (hback 0 0 (Nat.le_of_eq hzero) hfirst) (Nat.not_lt_zero _)
    dsimp only
    rw [Nat.sub_add_cancel hpos]
    refine ⟨by omega, takeWhile_eq_take (fun j y hj hy => ?_) fun j y hj hy => ?_⟩
    · rw [Array.getElem?_toList] at hy
      exact (hfront j y hj hy).le
    · rw [Array.getElem?_toList] at hy
      exact hback j y hj hy

theorem pastFeeds_ascending (pos : Nat) (bs : List UInt8) :
    (pastFeeds pos bs).Pairwise (· < ·) ∧ ∀ p ∈ pastFeeds pos bs, pos < p := by
  induction bs generalizing pos with
  | nil => exact ⟨.nil, List.forall_mem_nil _⟩
  | cons b bs ih =>
    obtain ⟨hpairs, hlt⟩ := ih (pos + 1)
    have hlt' : ∀ p ∈ pastFeeds (pos + 1) bs, pos < p := fun p hp => (Nat.lt_succ_self pos).trans (hlt p hp)
    rw [pastFeeds]
    split_ifs
    · exact ⟨List.pairwise_cons.2 ⟨hlt, hpairs⟩, List.forall_mem_cons.2 ⟨Nat.lt_succ_self pos, hlt'⟩⟩
    · exact ⟨hpairs, hlt'⟩

theorem lineStarts_ascending (f : SourceFile) : f.lineStarts.Pairwise (· < ·) := by
  rw [lineStarts_eq, List.pairwise_cons]
  exact ⟨(pastFeeds_ascending 0 f.bytes).2, (pastFeeds_ascending 0 f.bytes).1⟩

/-- The search finds the number of lines that start up to an offset, and the start of the last of them. -/
theorem lineColumn_started (f : SourceFile) (offset : Nat) : f.lineColumn offset =
    ((f.lineStarts.takeWhile (· ≤ offset)).length % wordCount,
      (offset - (f.lineStarts.takeWhile (· ≤ offset)).getLastD 0 + 1) % wordCount) := by
  have hstarts : f.lineStarts.toArray.toList.Pairwise (· < ·) := f.lineStarts_ascending
  obtain ⟨hlt, htake⟩ := lineIndex_spec hstarts rfl offset
  rw [lineColumn]
  generalize lineIndex f.lineStarts.toArray offset = line at hlt htake ⊢
  rw [List.size_toArray] at hlt
  have hlast : (f.lineStarts.take (line + 1)).getLastD 0 = f.lineStarts[line]?.getD 0 := by
    rw [List.getLastD_eq_getLast?, List.getLast?_take, if_neg (Nat.succ_ne_zero line), Nat.add_sub_cancel,
      List.getElem?_eq_getElem hlt]
    rfl
  rw [show f.lineStarts.takeWhile (· ≤ offset) = f.lineStarts.take (line + 1) from htake, hlast,
    List.length_take, Nat.min_eq_left hlt, List.getElem?_toArray]

/-! ### Lines -/

/-- Where the line of an offset starts. -/
def lineStart (f : SourceFile) (offset : Nat) : Nat :=
  (f.lineStarts.takeWhile (· ≤ offset)).getLastD 0

theorem lineStart_isGreatest (f : SourceFile) (offset : Nat) :
    IsGreatest (f.startsUpTo offset) (f.lineStart offset) := by
  have h := isGreatest_getLastD offset f.bytes (Nat.le_refl 0)
  simp only [Nat.zero_add] at h
  rw [lineStart, lineStarts_eq, List.takeWhile_cons_of_pos (by simp),
    List.getLastD_cons]
  exact h

variable {f : SourceFile} {a b offset : Nat}

theorem length_started : (f.lineStarts.takeWhile (· ≤ offset)).length = f.feedsBefore offset + 1 := by
  rw [lineStarts_eq, List.takeWhile_cons_of_pos (by simp), List.length_cons, length_takeWhile_pastFeeds]
  rfl

theorem lineStart_le : f.lineStart offset ≤ offset := by
  rcases (f.lineStart_isGreatest offset).1 with h | ⟨i, hi, -, h⟩
  · omega
  · omega

theorem feedsBefore_le : f.feedsBefore offset ≤ offset :=
  List.count_le_length.trans (List.length_take_le _ _)

/-- The file is one line up to the offset if no line feed stands before it. -/
theorem lineStart_eq_zero_iff : f.lineStart offset = 0 ↔ f.feedsBefore offset = 0 := by
  obtain ⟨hmem, hle⟩ := f.lineStart_isGreatest offset
  rw [feedsBefore, List.count_eq_zero, List.mem_iff_getElem?, not_exists]
  simp only [List.getElem?_take]
  constructor
  · intro hzero i hi
    split_ifs at hi with hlt
    have hpast : i + 1 ≤ f.lineStart offset := hle (.inr ⟨i, hlt, hi, rfl⟩)
    omega
  · intro hfeeds
    rcases hmem with hzero | ⟨i, hi, hfeed, -⟩
    · exact hzero
    · exact absurd ((if_pos hi).trans hfeed) (hfeeds i)

theorem started_isPrefix (hab : a ≤ b) :
    f.lineStarts.takeWhile (· ≤ a) <+: f.lineStarts.takeWhile (· ≤ b) := by
  have htwice : (f.lineStarts.takeWhile (· ≤ b)).takeWhile (· ≤ a) = f.lineStarts.takeWhile (· ≤ a) := by
    rw [List.takeWhile_takeWhile]
    congr 1
    funext p
    simp only [decide_eq_true_eq, decide_eq_decide]
    omega
  rw [← htwice]
  exact List.takeWhile_prefix _

theorem feedsBefore_mono (hab : a ≤ b) : f.feedsBefore a ≤ f.feedsBefore b := by
  have hlength := (started_isPrefix (f := f) hab).length_le
  rw [length_started, length_started] at hlength
  omega

/-- Offsets with the same line feeds before them are in one line. -/
theorem lineStart_eq_of_feedsBefore (hab : a ≤ b) (h : f.feedsBefore a = f.feedsBefore b) :
    f.lineStart a = f.lineStart b := by
  have hstarted : f.lineStarts.takeWhile (· ≤ a) = f.lineStarts.takeWhile (· ≤ b) := by
    apply (started_isPrefix hab).eq_of_length
    rw [length_started, length_started, h]
  rw [lineStart, lineStart, hstarted]

theorem lineColumn_eq : f.lineColumn offset =
    ((f.feedsBefore offset + 1) % wordCount, (offset - f.lineStart offset + 1) % wordCount) := by
  rw [lineColumn_started, length_started]
  rfl

/-! ### Words -/

/-- The line and the column that an offset has: the lines up to it, and the bytes of its line up to it. -/
structure Resolves (f : SourceFile) (offset : Nat) (place : Nat × Nat) : Prop where
  line : place.1 = f.feedsBefore offset + 1
  column : ∃ start, IsGreatest (f.startsUpTo offset) start ∧ start + place.2 = offset + 1

/-- At the greatest offset the column is no word if no line feed stands before it, and the line is none
if nothing else does. -/
def Wraps (f : SourceFile) (offset : Nat) : Prop :=
  offset + 1 = wordCount ∧ (f.feedsBefore offset = 0 ∨ f.feedsBefore offset = offset)

theorem resolves_iff {place : Nat × Nat} : f.Resolves offset place ↔
    place = (f.feedsBefore offset + 1, offset - f.lineStart offset + 1) := by
  have hle : f.lineStart offset ≤ offset := lineStart_le
  obtain ⟨line, column⟩ := place
  constructor
  · rintro ⟨hline, start, hstart, hcolumn⟩
    obtain rfl := hstart.unique (f.lineStart_isGreatest offset)
    simp only at hline hcolumn
    rw [hline, Prod.mk.injEq]
    omega
  · intro h
    obtain ⟨rfl, rfl⟩ := Prod.mk.inj h
    exact ⟨rfl, _, f.lineStart_isGreatest offset, by simp only; omega⟩

theorem resolves_of_not_wraps (ho : offset < wordCount) (h : ¬f.Wraps offset) :
    f.Resolves offset (f.lineColumn offset) := by
  have hfeeds : f.feedsBefore offset ≤ offset := feedsBefore_le
  have hstart : f.lineStart offset = 0 ↔ f.feedsBefore offset = 0 := lineStart_eq_zero_iff
  rw [Wraps] at h
  rw [resolves_iff, lineColumn_eq, Nat.mod_eq_of_lt (by omega), Nat.mod_eq_of_lt (by omega)]

theorem lineColumn_of_wraps (h : f.Wraps offset) :
    f.lineColumn offset = (1, 0) ∨ (f.lineColumn offset).1 = 0 := by
  obtain ⟨hlast, hfeeds | hfeeds⟩ := h
  · rw [lineColumn_eq, hfeeds, lineStart_eq_zero_iff.2 hfeeds, Nat.sub_zero, hlast, Nat.mod_self]
    exact .inl rfl
  · rw [lineColumn_eq, hfeeds, hlast, Nat.mod_self]
    exact .inr rfl

theorem resolves_iff_not_wraps (ho : offset < wordCount) :
    f.Resolves offset (f.lineColumn offset) ↔ ¬f.Wraps offset := by
  refine ⟨fun h hwraps => ?_, resolves_of_not_wraps ho⟩
  rw [resolves_iff] at h
  rcases lineColumn_of_wraps hwraps with hplace | hline
  · simp [hplace] at h
  · simp [h] at hline

/-! ### Order -/

theorem lex_iff_not_wraps (hab : a < b) (hb : b < wordCount) :
    Prod.Lex (· < ·) (· < ·) (f.lineColumn a) (f.lineColumn b) ↔ ¬f.Wraps b := by
  -- only the greatest offset wraps, and `a` is not
  have ha : ¬f.Wraps a := fun h => by
    have hlast := h.1
    omega
  rw [resolves_iff.1 (resolves_of_not_wraps (by omega) ha), Prod.lex_def]
  constructor
  · intro hlex hwraps
    rcases lineColumn_of_wraps hwraps with hplace | hline
    · rw [hplace] at hlex
      simp only at hlex
      omega
    · rw [hline] at hlex
      simp only at hlex
      omega
  · intro hwraps
    rw [resolves_iff.1 (resolves_of_not_wraps hb hwraps)]
    have hmono : f.feedsBefore a ≤ f.feedsBefore b := feedsBefore_mono hab.le
    rcases hmono.lt_or_eq with hlt | heq
    · exact .inl (by simp only; omega)
    · have hstart := lineStart_eq_of_feedsBefore hab.le heq
      have hle : f.lineStart a ≤ a := lineStart_le
      exact .inr ⟨by simp only; omega, by simp only; omega⟩

end SourceFile

theorem Location.compare_of_lex {file : String} {p q : Nat × Nat} (h : Prod.Lex (· < ·) (· < ·) p q) :
    Location.compare ⟨file, p.1, p.2⟩ ⟨file, q.1, q.2⟩ = .lt := by
  rw [Location.compare, Std.ReflOrd.compare_self, Ordering.eq_then]
  rcases Prod.lex_def.1 h with hline | ⟨hline, hcolumn⟩
  · rw [Nat.compare_eq_lt.2 hline, Ordering.lt_then]
  · rw [hline, Std.ReflOrd.compare_self, Ordering.eq_then, Nat.compare_eq_lt.2 hcolumn]

namespace SourceFile
variable {f : SourceFile}

theorem compare_location {sources : Sources} {x y : Span} (hx : sources.file? x.file = some f)
    (hy : sources.file? y.file = some f) (hxword : x.start < wordCount) (hyword : y.start < wordCount)
    (hxwraps : ¬f.Wraps x.start) (hywraps : ¬f.Wraps y.start) :
    (sources.location x).compare (sources.location y) = compare x.start y.start := by
  have hlocation : ∀ {z : Span}, sources.file? z.file = some f →
      sources.location z = ⟨f.name, (f.lineColumn z.start).1, (f.lineColumn z.start).2⟩ := by
    intro z hz
    rw [Sources.location, hz]
  rw [hlocation hx, hlocation hy]
  rcases lt_trichotomy x.start y.start with hlt | heq | hgt
  · rw [Location.compare_of_lex ((lex_iff_not_wraps hlt hyword).2 hywraps), Nat.compare_eq_lt.2 hlt]
  · have hself : ∀ l : Location, l.compare l = .eq := fun _ => Std.ReflCmp.compare_self
    rw [heq, Std.ReflOrd.compare_self, hself]
  · have hswap : ∀ l m : Location, l.compare m = (m.compare l).swap := fun _ _ => Std.OrientedCmp.eq_swap
    rw [hswap, Location.compare_of_lex ((lex_iff_not_wraps hgt hxword).2 hxwraps), Nat.compare_eq_gt.2 hgt]
    rfl

/-- The line and the column are exact unless they wrap around, and so is their order; findings in one
file that stand where they do not are put in the order of their offsets by their locations. -/
theorem lineColumn_resolves (f : SourceFile) :
    (∀ offset < wordCount, f.Resolves offset (f.lineColumn offset) ↔ ¬f.Wraps offset) ∧
    (∀ a b, a < b → b < wordCount →
      (Prod.Lex (· < ·) (· < ·) (f.lineColumn a) (f.lineColumn b) ↔ ¬f.Wraps b)) ∧
    ∀ (sources : Sources) (findings : List Finding),
      (∀ x ∈ findings, sources.file? x.span.file = some f ∧ x.span.start < wordCount ∧
        ¬f.Wraps x.span.start) →
      (findings.mergeSort fun x y =>
          ((sources.location x.span).compare (sources.location y.span)).isLE) =
        findings.mergeSort fun x y => x.span.start ≤ y.span.start := by
  refine ⟨fun _ => resolves_iff_not_wraps, fun _ _ => lex_iff_not_wraps, fun sources findings h => ?_⟩
  refine StableOrder.mergeSort_congr fun x hx y hy => ?_
  obtain ⟨hxfile, hxword, hxwraps⟩ := h x hx
  obtain ⟨hyfile, hyword, hywraps⟩ := h y hy
  rw [compare_location hxfile hyfile hxword hyword hxwraps hywraps, Bool.eq_iff_iff, decide_eq_true_eq,
    Nat.isLE_compare]

/-- Two lines, an empty one between them, and a character of two bytes. -/
def blankLine : SourceFile := ⟨"blank.vhd", "ab\n\ncé"⟩

theorem bytes_blankLine : blankLine.bytes = [97, 98, 10, 10, 99, 195, 169] := by
  rw [bytes, Utf8.bytes_eq_flatMap]
  decide

/-- The file has two line feeds before its third line, which also goes on past the end of the file. -/
theorem lineColumn_resolves_blankLine :
    blankLine.Resolves 4294967295 (blankLine.lineColumn 4294967295) ∧
    Prod.Lex (· < ·) (· < ·) (blankLine.lineColumn 3) (blankLine.lineColumn 4) ∧
    let late : Finding := { (default : Finding) with span := ⟨0, 4, 5⟩ }
    let early : Finding := { (default : Finding) with span := ⟨0, 1, 2⟩ }
    let sources : Sources := ⟨#[blankLine]⟩
    ([late, early].mergeSort fun x y =>
        ((sources.location x.span).compare (sources.location y.span)).isLE) =
      [late, early].mergeSort fun x y => x.span.start ≤ y.span.start := by
  have hwraps : ¬blankLine.Wraps 4294967295 ∧ ¬blankLine.Wraps 4 ∧ ¬blankLine.Wraps 1 := by
    simp only [Wraps, feedsBefore, bytes_blankLine]
    decide
  obtain ⟨hexact, horder, hsort⟩ := lineColumn_resolves blankLine
  refine ⟨(hexact _ (by decide)).2 hwraps.1, (horder 3 4 (by decide) (by decide)).2 hwraps.2.1, ?_⟩
  refine hsort _ _ fun x hx => ?_
  rcases List.mem_pair.1 hx with rfl | rfl
  · exact ⟨rfl, by decide, hwraps.2.1⟩
  · exact ⟨rfl, by decide, hwraps.2.2⟩

def emptyFile : SourceFile := ⟨"empty.vhd", ""⟩

/-- In a file of one line the greatest offset has the column zero, and so does not come after the others. -/
theorem lineColumn_wrapsAround : emptyFile.bytes.length < wordCount ∧ 4294967295 < wordCount ∧
    emptyFile.lineColumn 4294967295 = (1, 0) ∧
    ¬emptyFile.Resolves 4294967295 (emptyFile.lineColumn 4294967295) ∧
    ¬Prod.Lex (· < ·) (· < ·) (emptyFile.lineColumn 0) (emptyFile.lineColumn 4294967295) := by
  have hbytes : emptyFile.bytes = [] := by
    rw [bytes, Utf8.bytes_eq_flatMap]
    decide
  have hwraps : emptyFile.Wraps 4294967295 := by
    rw [Wraps, feedsBefore, hbytes]
    decide
  refine ⟨by rw [hbytes]; decide, by decide +kernel, by decide +kernel, ?_, ?_⟩
  · exact fun h => (resolves_iff_not_wraps (by decide)).1 h hwraps
  · exact fun h => (lex_iff_not_wraps (by decide) (by decide)).1 h hwraps

end SourceFile

end HdlLint
