import Mathlib.Data.Nat.Digits.Defs
import HdlLint.Proofs.Printing
import HdlLint.Proofs.Words

/-!
# What integer literals denote

A literal is a decimal number, such a number with a power of ten, or a number in a base between signs
`#`. What it denotes is said by its text (`Denotes`). The lexer gives the kind of an integer literal to
texts that look like one (`IntWritten`), though digits may be missing behind the plus sign of an exponent
or between the signs `#`, and the base may be any number.

The value that is read is the number denoted, if it fits a word. One case is missed: a zero with a power
of ten that does not fit a word itself (`IsOvershot`).
-/

namespace HdlLint.Syntax.Literal
variable {cs ds es sign : List Char} {b m n k v : Nat} {c e : Char}

/-! ### Numerals -/

/-- One digit or more, each below the base, denote `n`. The first one has the most weight. -/
def Numeral (b : Nat) (cs : List Char) (n : Nat) : Prop :=
  cs ≠ [] ∧ ∃ ds : List Nat, cs.map Ascii.digitValue = ds.map some ∧ (∀ d ∈ ds, d < b) ∧
    Nat.ofDigits b ds.reverse = n

theorem foldl_readDigit_eq_some_iff : cs.foldl (readDigit b) (some 0) = some n ↔
    ∃ ds : List Nat, cs.map Ascii.digitValue = ds.map some ∧ (∀ d ∈ ds, d < b) ∧
      Nat.ofDigits b ds.reverse = n := by
  induction cs using List.reverseRecOn generalizing n with
  | nil =>
    constructor
    · intro h
      exact ⟨[], rfl, nofun, Option.some.inj h⟩
    · rintro ⟨ds, hds, -, rfl⟩
      obtain rfl := List.map_eq_nil_iff.1 hds.symm
      rfl
  | append_singleton cs c ih =>
    rw [List.foldl_append, List.foldl_cons, List.foldl_nil]
    constructor
    · intro h
      obtain ⟨a, ha, h⟩ := Option.bind_eq_some_iff.1 h
      obtain ⟨d, hd, h⟩ := Option.bind_eq_some_iff.1 h
      obtain ⟨ds, hds, hlt, rfl⟩ := ih.1 ha
      obtain ⟨hdb, rfl⟩ : d < b ∧ Nat.ofDigits b ds.reverse * b + d = n := by simpa using h
      refine ⟨ds ++ [d], by simp [hds, hd], ?_, ?_⟩
      · simpa [or_imp, forall_and] using ⟨hlt, hdb⟩
      · simp [Nat.ofDigits_cons, Nat.mul_comm, Nat.add_comm]
    · rintro ⟨ds, hds, hlt, rfl⟩
      rcases List.eq_nil_or_concat ds with rfl | ⟨ds, d, rfl⟩
      · simp at hds
      · rw [List.concat_eq_append] at hds hlt ⊢
        have hsplit : cs.map Ascii.digitValue = ds.map some ∧ Ascii.digitValue c = some d := by
          simpa using hds
        have hdb : d < b := hlt d (by simp)
        have ha := ih.2 ⟨ds, hsplit.1, fun x hx => hlt x (by simp [hx]), rfl⟩
        rw [ha]
        simp [readDigit, hsplit.2, hdb, Nat.ofDigits_cons, Nat.mul_comm, Nat.add_comm]

/-- Reading digits gives the number they denote. -/
theorem number?_eq_some_iff : Ascii.number? b cs = some n ↔ Numeral b cs n := by
  by_cases hcs : cs = []
  · subst hcs
    exact ⟨nofun, fun h => absurd rfl h.1⟩
  · rw [number?_eq_foldl hcs, foldl_readDigit_eq_some_iff, Numeral, and_iff_right hcs]

theorem Numeral.unique (h : Numeral b cs m) (h' : Numeral b cs n) : m = n :=
  Option.some.inj ((number?_eq_some_iff.2 h).symm.trans (number?_eq_some_iff.2 h'))

theorem Numeral.exists_digit (h : Numeral b cs n) (hc : c ∈ cs) :
    ∃ d, Ascii.digitValue c = some d ∧ d < b := by
  obtain ⟨-, ds, hds, hlt, -⟩ := h
  have hmem : Ascii.digitValue c ∈ ds.map some := hds ▸ List.mem_map_of_mem hc
  obtain ⟨d, hd, heq⟩ := List.mem_map.1 hmem
  exact ⟨d, heq.symm, hlt d hd⟩

/-! ### Literals -/

/-- Underscores only group digits. -/
def ungrouped (cs : List Char) : List Char := cs.filter (· ≠ '_')

/-- A mantissa `m` with the exponent `k`, which may have a plus sign. -/
inductive Scaled : List Char → Nat → Nat → Prop
  | intro {ds sign es : List Char} {e : Char} {m k : Nat} (hm : Numeral 10 (ungrouped ds) m)
      (he : e = 'e' ∨ e = 'E') (hsign : sign = [] ∨ sign = ['+']) (hk : Numeral 10 (ungrouped es) k) :
      Scaled (ds ++ e :: (sign ++ es)) m k

/-- The number that a literal denotes, whatever its size. -/
inductive Denotes : List Char → Nat → Prop
  | decimal {ds : List Char} {n : Nat} (h : Numeral 10 (ungrouped ds) n) : Denotes ds n
  | scaled {w : List Char} {m k : Nat} (h : Scaled w m k) : Denotes w (m * Nat.pow 10 k)
  | based {bs ds : List Char} {b n : Nat} (hb : Numeral 10 (ungrouped bs) b) (hle : 2 ≤ b ∧ b ≤ 16)
      (hn : Numeral b (ungrouped ds) n) : Denotes (bs ++ '#' :: (ds ++ ['#'])) n

/-- A zero whose power of ten alone does not fit a word. -/
def IsOvershot (w : List Char) : Prop := ∃ k, maxInt < Nat.pow 10 k ∧ Scaled w 0 k

/-- The value that is read is the number denoted, if it fits a word, and there is none else. -/
def ReadsExactly (w : List Char) : Prop := ∀ v, value? w = some v ↔ Denotes w v ∧ v ≤ maxInt

theorem maxInt_lt_pow_iff : maxInt < Nat.pow 10 k ↔ maxExponent < k := by
  have hmost : Nat.pow 10 maxExponent ≤ maxInt := by decide
  have hmore : maxInt < Nat.pow 10 (maxExponent + 1) := by decide
  constructor
  · intro h
    by_contra hk
    have hle : Nat.pow 10 k ≤ Nat.pow 10 maxExponent := Nat.pow_le_pow_right (by decide) (by omega)
    omega
  · intro h
    have hle : Nat.pow 10 (maxExponent + 1) ≤ Nat.pow 10 k := Nat.pow_le_pow_right (by decide) h
    omega

theorem atMost_eq_some_iff {bound : Nat} : atMost bound n = some v ↔ n = v ∧ v ≤ bound := by
  unfold atMost
  split
  · rw [Option.some.injEq]
    exact ⟨fun h => ⟨h, h ▸ ‹_›⟩, fun h => h.1⟩
  · constructor
    · nofun
    · rintro ⟨rfl, h⟩
      exact absurd h ‹_›

theorem number?_atMost_eq_some_iff {bound : Nat} :
    (Ascii.number? b cs).bind (atMost bound) = some v ↔ Numeral b cs v ∧ v ≤ bound := by
  rw [Option.bind_eq_some_iff]
  constructor
  · rintro ⟨n, hn, hv⟩
    obtain ⟨rfl, hle⟩ := atMost_eq_some_iff.1 hv
    exact ⟨number?_eq_some_iff.1 hn, hle⟩
  · rintro ⟨hv, hle⟩
    exact ⟨v, number?_eq_some_iff.2 hv, atMost_eq_some_iff.2 ⟨rfl, hle⟩⟩

theorem based?_eq_some_iff {bs : List Char} : based? bs ds = some v ↔
    ∃ b, Numeral 10 bs b ∧ (2 ≤ b ∧ b ≤ maxBase) ∧ Numeral b ds v ∧ v ≤ maxInt := by
  rw [based?, Option.bind_eq_bind, Option.bind_eq_some_iff]
  refine exists_congr fun b => ?_
  rw [number?_eq_some_iff]
  refine and_congr_right fun _ => ?_
  by_cases hb : 2 ≤ b ∧ b ≤ maxBase
  · rw [if_pos hb, number?_atMost_eq_some_iff, and_iff_right hb]
  · rw [if_neg hb]
    exact ⟨nofun, fun h => absurd h.1 hb⟩

/-- The power of ten is limited even where the mantissa is zero. Else the limit is that of the value. -/
theorem scaled?_eq_some_iff : scaled? ds es = some v ↔
    ∃ m k, Numeral 10 ds m ∧ Numeral 10 es k ∧ k ≤ maxExponent ∧ m * Nat.pow 10 k = v ∧ v ≤ maxInt := by
  have hmantissa : ∀ {m k}, m * Nat.pow 10 k ≤ maxInt → m ≤ maxInt := fun h =>
    (Nat.le_mul_of_pos_right _ (Nat.pow_pos (by decide))).trans h
  rw [scaled?, Option.bind_eq_bind, Option.bind_eq_some_iff]
  constructor
  · rintro ⟨m, hm, h⟩
    obtain ⟨k, hk, h⟩ := Option.bind_eq_some_iff.1 h
    split at h
    · exact ⟨m, k, (number?_atMost_eq_some_iff.1 hm).1, number?_eq_some_iff.1 hk, ‹_›,
        atMost_eq_some_iff.1 h⟩
    · cases h
  · rintro ⟨m, k, hm, hk, hle, rfl, hv⟩
    refine ⟨m, number?_atMost_eq_some_iff.2 ⟨hm, hmantissa hv⟩,
      Option.bind_eq_some_iff.2 ⟨k, number?_eq_some_iff.2 hk, ?_⟩⟩
    rw [if_pos hle]
    exact atMost_eq_some_iff.2 ⟨rfl, hv⟩

/-! ### Reading a literal apart -/

theorem splitAt?_append {p : Char → Bool} (hds : ∀ d ∈ ds, p d = false) (hc : p c) :
    splitAt? p (ds ++ c :: es) = some (ds, es) := by
  have hnot : ∀ d ∈ ds, (!p d) = true := fun d hd => by simp [hds d hd]
  rw [splitAt?, List.dropWhile_append_of_pos hnot, List.takeWhile_append_of_pos hnot]
  simp [hc]

/-- Digits and underscores are none of the signs that divide a literal. -/
theorem ne_of_isDigitRest (hds : ∀ d ∈ ds, Ascii.isDigitRest d) (hc : Ascii.isDigitRest c = false) :
    ∀ d ∈ ungrouped ds, d ≠ c := by
  rintro d hd rfl
  rw [hds d (List.mem_filter.1 hd).1] at hc
  cases hc

theorem splitExponent_eq_none (hds : ∀ d ∈ ds, Ascii.isDigitRest d) :
    splitAt? (fun c => c = 'e' || c = 'E') (ungrouped ds) = none :=
  splitAt?_eq_none fun d hd => by
    simp [ne_of_isDigitRest hds (c := 'e') rfl d hd, ne_of_isDigitRest hds (c := 'E') rfl d hd]

theorem value?_decimal (hds : ∀ d ∈ ds, Ascii.isDigitRest d) :
    value? ds = (Ascii.number? 10 (ungrouped ds)).bind (atMost maxInt) := by
  have hbased : splitAt? (· = '#') (ungrouped ds) = none :=
    splitAt?_eq_none fun d hd => by simpa using ne_of_isDigitRest hds rfl d hd
  have hungrouped : ds.filter (· ≠ '_') = ungrouped ds := rfl
  rw [value?, hungrouped]
  simp only [hbased, splitExponent_eq_none hds]

theorem value?_scaled (hds : ∀ d ∈ ds, Ascii.isDigitRest d) (he : e = 'e' ∨ e = 'E')
    (hsign : sign = [] ∨ sign = ['+']) (hes : ∀ d ∈ es, Ascii.isDigitRest d) :
    value? (ds ++ e :: (sign ++ es)) = scaled? (ungrouped ds) (ungrouped es) := by
  have hungrouped : (ds ++ e :: (sign ++ es)).filter (· ≠ '_') =
      ungrouped ds ++ e :: (sign ++ ungrouped es) := by
    have hsign' : sign.filter (· ≠ '_') = sign := by rcases hsign with rfl | rfl <;> rfl
    have he' : e ≠ '_' := by rcases he with rfl | rfl <;> decide
    rw [List.filter_append, List.filter_cons_of_pos (by simpa using he'), List.filter_append, hsign']
    rfl
  have hbased : splitAt? (· = '#') (ungrouped ds ++ e :: (sign ++ ungrouped es)) = none := by
    refine splitAt?_eq_none fun d hd => ?_
    have hd' : d ≠ '#' := by
      rcases List.mem_append.1 hd with hd | hd
      · exact ne_of_isDigitRest hds rfl d hd
      rcases List.mem_cons.1 hd with rfl | hd
      · rcases he with rfl | rfl <;> decide
      rcases List.mem_append.1 hd with hd | hd
      · rcases hsign with rfl | rfl
        · cases hd
        · obtain rfl := List.mem_singleton.1 hd
          decide
      · exact ne_of_isDigitRest hes rfl d hd
    simpa using hd'
  have hsplit : splitAt? (fun c => c = 'e' || c = 'E') (ungrouped ds ++ e :: (sign ++ ungrouped es)) =
      some (ungrouped ds, sign ++ ungrouped es) := by
    refine splitAt?_append (fun d hd => ?_) (by simpa using he)
    simp [ne_of_isDigitRest hds (c := 'e') rfl d hd, ne_of_isDigitRest hds (c := 'E') rfl d hd]
  have hdrop : (sign ++ ungrouped es).dropWhile (· = '+') = ungrouped es := by
    have hstop : (ungrouped es).dropWhile (· = '+') = ungrouped es := by
      rcases hlist : ungrouped es with _ | ⟨d, rest⟩
      · rfl
      · have hd : d ≠ '+' := ne_of_isDigitRest hes rfl d (hlist ▸ List.mem_cons_self)
        simp [hd]
    rcases hsign with rfl | rfl
    · exact hstop
    · exact hstop
  rw [value?, hungrouped]
  simp only [hbased, hsplit, hdrop]

theorem value?_based {bs : List Char} (hbs : ∀ d ∈ bs, Ascii.isDigitRest d) (hds : '#' ∉ ds) :
    value? (bs ++ '#' :: (ds ++ ['#'])) = based? (ungrouped bs) (ungrouped ds) := by
  have hungrouped : (bs ++ '#' :: (ds ++ ['#'])).filter (· ≠ '_') =
      ungrouped bs ++ '#' :: (ungrouped ds ++ ['#']) := by
    rw [List.filter_append, List.filter_cons_of_pos (by decide), List.filter_append]
    rfl
  have hsplit : splitAt? (· = '#') (ungrouped bs ++ '#' :: (ungrouped ds ++ ['#'])) =
      some (ungrouped bs, ungrouped ds ++ ['#']) :=
    splitAt?_append (fun d hd => by simpa using ne_of_isDigitRest hbs rfl d hd) (by simp)
  have htrim : trimEnd '#' (ungrouped ds ++ ['#']) = ungrouped ds := by
    have hhead : (ungrouped ds).reverse.dropWhile (· = '#') = (ungrouped ds).reverse := by
      refine List.dropWhile_eq_self_iff.2 fun hlt => ?_
      have hmem := List.mem_reverse.1 (List.getElem_mem hlt)
      exact fun heq => hds (of_decide_eq_true heq ▸ (List.mem_filter.1 hmem).1)
    rw [trimEnd, List.reverse_append, List.reverse_singleton, List.singleton_append,
      List.dropWhile_cons_of_pos (by decide), hhead, List.reverse_reverse]
  rw [value?, hungrouped]
  simp only [hsplit, htrim]

/-! ### Values -/

theorem isDigit_of_digitValue {d : Nat} (h : Ascii.digitValue c = some d) (hd : d < 10) : c.isDigit := by
  unfold Ascii.digitValue at h
  split at h
  · assumption
  · split at h
    · obtain rfl := Option.some.inj h
      omega
    · split at h
      · obtain rfl := Option.some.inj h
        omega
      · cases h

theorem Numeral.isDigitRest (h : Numeral 10 (ungrouped ds) n) : ∀ d ∈ ds, Ascii.isDigitRest d := by
  intro c hc
  by_cases hunder : c = '_'
  · subst hunder
    rfl
  · obtain ⟨d, hd, hlt⟩ := h.exists_digit (List.mem_filter.2 ⟨hc, by simpa using hunder⟩)
    rw [Ascii.isDigitRest, isDigit_of_digitValue hd hlt, Bool.true_or]

theorem Scaled.value?_eq_some_iff {w : List Char} (h : Scaled w m k) :
    value? w = some v ↔ k ≤ maxExponent ∧ m * Nat.pow 10 k = v ∧ v ≤ maxInt := by
  obtain ⟨hm, he, hsign, hk⟩ := h
  rw [value?_scaled hm.isDigitRest he hsign hk.isDigitRest, scaled?_eq_some_iff]
  constructor
  · rintro ⟨m', k', hm', hk', h⟩
    rwa [hm.unique hm', hk.unique hk']
  · exact fun h => ⟨m, k, hm, hk, h⟩

/-- A number that fits a word is read, unless it is an overshot zero. -/
theorem Denotes.value? {w : List Char} (h : Denotes w v) (hv : v ≤ maxInt) (hovershot : ¬ IsOvershot w) :
    value? w = some v := by
  cases h with
  | decimal h =>
    rw [value?_decimal h.isDigitRest]
    exact number?_atMost_eq_some_iff.2 ⟨h, hv⟩
  | @scaled _ m k h =>
    refine h.value?_eq_some_iff.2 ⟨?_, rfl, hv⟩
    by_contra hk
    have hpow : maxInt < Nat.pow 10 k := maxInt_lt_pow_iff.2 (by omega)
    rcases Nat.eq_zero_or_pos m with rfl | hm
    · exact hovershot ⟨k, hpow, h⟩
    · have hle : Nat.pow 10 k ≤ m * Nat.pow 10 k := Nat.le_mul_of_pos_left _ hm
      omega
  | @based bs ds b n hb hle hn =>
    have hds : '#' ∉ ds := by
      intro hmem
      obtain ⟨d, hd, -⟩ := hn.exists_digit (List.mem_filter.2 ⟨hmem, by decide⟩)
      cases hd
    rw [value?_based hb.isDigitRest hds]
    exact based?_eq_some_iff.2 ⟨b, hb, hle, hn, hv⟩

theorem IsOvershot.value?_eq_none {w : List Char} (h : IsOvershot w) : value? w = none := by
  obtain ⟨k, hpow, hscaled⟩ := h
  rw [Option.eq_none_iff_forall_not_mem]
  intro v hv
  have hk := (hscaled.value?_eq_some_iff.1 hv).1
  have hlt := maxInt_lt_pow_iff.1 hpow
  omega

/-- The texts that have the kind of an integer literal: digits, with an exponent, or with a base. -/
inductive IntWritten : List Char → Prop
  | decimal {ds : List Char} (hds : ∀ d ∈ ds, Ascii.isDigitRest d) : IntWritten ds
  | scaled {ds sign es : List Char} {e : Char} (hds : ∀ d ∈ ds, Ascii.isDigitRest d)
      (he : e = 'e' ∨ e = 'E') (hsign : sign = [] ∨ sign = ['+']) (hes : ∀ d ∈ es, Ascii.isDigitRest d) :
      IntWritten (ds ++ e :: (sign ++ es))
  | based {bs ds : List Char} (hbs : ∀ d ∈ bs, Ascii.isDigitRest d) (hds : ∀ d ∈ ds, Ascii.isBasedRest d) :
      IntWritten (bs ++ '#' :: (ds ++ ['#']))

theorem IntWritten.denotes {w : List Char} (h : IntWritten w) (hv : value? w = some v) :
    Denotes w v ∧ v ≤ maxInt := by
  cases h with
  | decimal hds =>
    rw [value?_decimal hds] at hv
    exact (number?_atMost_eq_some_iff.1 hv).imp_left .decimal
  | scaled hds he hsign hes =>
    rw [value?_scaled hds he hsign hes] at hv
    obtain ⟨m, k, hm, hk, -, rfl, hle⟩ := scaled?_eq_some_iff.1 hv
    exact ⟨.scaled ⟨hm, he, hsign, hk⟩, hle⟩
  | based hbs hds =>
    rw [value?_based hbs fun hmem => by cases hds _ hmem] at hv
    obtain ⟨b, hb, hle, hn, hmax⟩ := based?_eq_some_iff.1 hv
    exact ⟨.based hb hle hn, hmax⟩

theorem IntWritten.value?_eq_some_iff {w : List Char} (h : IntWritten w) :
    value? w = some v ↔ (Denotes w v ∧ v ≤ maxInt) ∧ ¬ IsOvershot w := by
  constructor
  · intro hv
    refine ⟨h.denotes hv, fun hovershot => ?_⟩
    rw [hovershot.value?_eq_none] at hv
    cases hv
  · rintro ⟨⟨hdenotes, hle⟩, hovershot⟩
    exact hdenotes.value? hle hovershot

end HdlLint.Syntax.Literal

namespace HdlLint.Lexer
open Syntax.Literal
variable {prev : Option TokenKind} {c : Char} {cs : List Char}

/-! ### Literals of a text -/

theorem exponent_eq_zero_or (cs : List Char) : exponent cs = 0 ∨ ∃ e sign es rest,
    (e = 'e' ∨ e = 'E') ∧ (sign = [] ∨ sign = ['+']) ∧ (∀ d ∈ es, Ascii.isDigitRest d) ∧
      cs = e :: (sign ++ es) ++ rest ∧ exponent cs = (e :: (sign ++ es)).length := by
  unfold exponent
  split
  · rename_i e d cs
    split
    · rename_i hstart
      obtain ⟨he, hd⟩ : (e = 'e' ∨ e = 'E') ∧ (d.isDigit ∨ d = '+') := by simpa using hstart
      have hrest : ∀ x ∈ cs.takeWhile Ascii.isDigitRest, Ascii.isDigitRest x := fun x hx =>
        List.mem_takeWhile_imp hx
      have hsplit : cs = cs.takeWhile Ascii.isDigitRest ++ cs.dropWhile Ascii.isDigitRest :=
        List.takeWhile_append_dropWhile.symm
      right
      rcases hd with hd | rfl
      · refine ⟨e, [], d :: cs.takeWhile Ascii.isDigitRest, cs.dropWhile Ascii.isDigitRest, he, .inl rfl,
          List.forall_mem_cons.2 ⟨by simp [Ascii.isDigitRest, hd], hrest⟩, ?_, ?_⟩
        · simp
        · simp only [List.nil_append, List.length_cons]
          omega
      · refine ⟨e, ['+'], cs.takeWhile Ascii.isDigitRest, cs.dropWhile Ascii.isDigitRest, he, .inr rfl,
          hrest, ?_, ?_⟩
        · simp
        · simp only [List.singleton_append, List.length_cons]
          omega
    · exact .inl rfl
  · exact .inl rfl

theorem numberShape_intWritten (hc : c.isDigit) (h : (numberShape cs).kind = some .intLiteral) :
    IntWritten (c :: cs.take (numberShape cs).more) := by
  have hdigits : ∀ d ∈ c :: cs.takeWhile Ascii.isDigitRest, Ascii.isDigitRest d :=
    List.forall_mem_cons.2 ⟨by simp [Ascii.isDigitRest, hc], fun d hd => List.mem_takeWhile_imp hd⟩
  have htake : ∀ more rest, cs.dropWhile Ascii.isDigitRest = more ++ rest →
      cs.take ((cs.takeWhile Ascii.isDigitRest).length + more.length) =
        cs.takeWhile Ascii.isDigitRest ++ more := by
    intro more rest hdrop
    have hcs : cs = (cs.takeWhile Ascii.isDigitRest ++ more) ++ rest := by
      rw [List.append_assoc, ← hdrop, List.takeWhile_append_dropWhile]
    rw [← List.length_append]
    exact (congrArg (List.take _) hcs).trans List.take_left
  unfold numberShape at h ⊢
  dsimp only at h ⊢
  rw [drop_length_takeWhile] at h ⊢
  split at h
  · rename_i rest hbase
    rw [drop_length_takeWhile] at h ⊢
    split at h
    · rename_i back hclose
      have hrest : rest = rest.takeWhile Ascii.isBasedRest ++ '#' :: back := by
        rw [← hclose, List.takeWhile_append_dropWhile]
      have hmore : cs.dropWhile Ascii.isDigitRest =
          ('#' :: (rest.takeWhile Ascii.isBasedRest ++ ['#'])) ++ back := by
        rw [hbase]
        nth_rewrite 1 [hrest]
        simp
      have htext := htake _ _ hmore
      have hlen : ('#' :: (rest.takeWhile Ascii.isBasedRest ++ ['#'])).length =
          1 + (rest.takeWhile Ascii.isBasedRest).length + 1 := by
        simp only [List.length_cons, List.length_append, List.length_nil]
        omega
      rw [hlen, ← Nat.add_assoc, ← Nat.add_assoc] at htext
      simp only [Shape.token, htext]
      exact .based hdigits fun d hd => List.mem_takeWhile_imp hd
    · cases h
  · have hfraction : fraction (cs.dropWhile Ascii.isDigitRest) = 0 := by
      by_contra hne
      rw [if_neg hne] at h
      cases h
    simp only [hfraction, List.drop_zero, Nat.add_zero, Shape.token]
    rcases exponent_eq_zero_or (cs.dropWhile Ascii.isDigitRest) with
      hzero | ⟨e, sign, es, rest, he, hsign, hes, hdrop, hlen⟩
    · rw [hzero, Nat.add_zero, take_length_takeWhile]
      exact .decimal hdigits
    · rw [hlen, htake _ _ hdrop]
      exact .scaled hdigits he hsign hes

theorem wordShape_ne_intLiteral : (wordShape c cs).kind ≠ some .intLiteral := by
  have hword : ∀ w : List Char, wordKind w ≠ .intLiteral := by
    intro w
    unfold wordKind
    cases Keyword.ofSpelling? (Ascii.lower (String.ofList w)) <;> nofun
  intro h
  rcases wordShape_kind h with hk | hk | hk
  · cases hk
  · cases hk
  · exact hword _ hk.symm

theorem stringShape_ne_intLiteral {k : TokenKind} (hk : k ≠ .intLiteral) (n : Nat) :
    (stringShape k n cs).kind ≠ some .intLiteral := by
  unfold stringShape
  dsimp only
  split
  · exact fun h => hk (Option.some.inj h)
  · nofun

theorem signShape_ne_intLiteral : (signShape c cs).kind ≠ some .intLiteral := by
  unfold signShape
  split
  · nofun
  · split <;> nofun

theorem tokenShape_intWritten (h : (tokenShape prev c cs).kind = some .intLiteral) :
    IntWritten (c :: cs.take (tokenShape prev c cs).more) := by
  unfold tokenShape at h ⊢
  by_cases hchar : (isCharLiteral c cs && !tickIsAttribute prev) = true
  · rw [if_pos hchar] at h
    cases h
  rw [if_neg hchar] at h ⊢
  by_cases hword : Ascii.isWordStart c
  · rw [if_pos hword] at h
    exact absurd h wordShape_ne_intLiteral
  rw [if_neg hword] at h ⊢
  by_cases hdigit : c.isDigit
  · rw [if_pos hdigit] at h ⊢
    exact numberShape_intWritten hdigit h
  rw [if_neg hdigit] at h
  split at h
  · exact absurd h (stringShape_ne_intLiteral (by decide) 0)
  · exact absurd h signShape_ne_intLiteral

theorem shape_intWritten (h : (shape prev c cs).kind = some .intLiteral) :
    IntWritten (c :: cs.take (shape prev c cs).more) := by
  by_cases hblank : Ascii.isBlank c
  · simp only [shape, hblank, if_true] at h
    cases h
  rw [Bool.not_eq_true] at hblank
  cases hcomment : commentShape? c cs with
  | some s =>
    rw [shape_comment hblank hcomment, commentShape?_kind hcomment] at h
    cases h
  | none =>
    have hshape : shape prev c cs = tokenShape prev c cs := by simp [shape, hblank, hcomment]
    rw [hshape] at h ⊢
    exact tokenShape_intWritten h

theorem mem_lex_intWritten {file : Nat} {text : String} {t : Token} (ht : t ∈ (lex file text).1)
    (hkind : t.kind = .intLiteral) : IntWritten t.text.toList := by
  rcases mem_lex.1 ht with ⟨p, hp, k, hk, rfl⟩ | rfl
  · rw [String.toList_ofList]
    refine cut_forall (P := fun k w => k = .intLiteral → IntWritten w) ?_ p hp k hk hkind
    rintro prev c cs _ h rfl
    exact shape_intWritten h
  · cases hkind

end HdlLint.Lexer

namespace HdlLint.Syntax.Literal

/-- A literal of a text has the number it denotes as its value, if that fits a word and the literal is no
overshot zero. So the values are those denoted just for all other literals. -/
theorem value_exact {file : Nat} {text : String} {t : Token} (ht : t ∈ (Lexer.lex file text).1)
    (hkind : t.kind = .intLiteral) :
    (∀ v, value? t.text.toList = some v ↔
      (Denotes t.text.toList v ∧ v ≤ maxInt) ∧ ¬ IsOvershot t.text.toList) ∧
      (ReadsExactly t.text.toList ↔ ¬ IsOvershot t.text.toList) := by
  have hvalue : ∀ v, value? t.text.toList = some v ↔
      (Denotes t.text.toList v ∧ v ≤ maxInt) ∧ ¬ IsOvershot t.text.toList := fun v =>
    (Lexer.mem_lex_intWritten ht hkind).value?_eq_some_iff
  refine ⟨hvalue, fun hexact hovershot => ?_, fun hovershot v => ?_⟩
  · -- an overshot zero denotes zero and has no value
    obtain ⟨k, hpow, hscaled⟩ := hovershot
    have hzero : Denotes t.text.toList 0 := by simpa using Denotes.scaled hscaled
    have hread := (hexact 0).2 ⟨hzero, Nat.zero_le _⟩
    exact ((hvalue 0).1 hread).2 ⟨k, hpow, hscaled⟩
  · rw [hvalue v, and_iff_left hovershot]

theorem value_exact_grouped : value? "9_2e+1_7".toList = some 9200000000000000000 ∧
    ReadsExactly "9_2e+1_7".toList := by
  have ht : (⟨.intLiteral, "9_2e+1_7", ⟨0, 0, 8⟩⟩ : Token) ∈ (Lexer.lex 0 "9_2e+1_7").1 := by
    decide +kernel
  have hvalue : value? "9_2e+1_7".toList = some 9200000000000000000 := by decide +kernel
  obtain ⟨hdenoted, hexact⟩ := value_exact ht rfl
  exact ⟨hvalue, hexact.2 ((hdenoted _).1 hvalue).2⟩

theorem value_overshot : (⟨.intLiteral, "0e19", ⟨0, 0, 4⟩⟩ : Token) ∈ (Lexer.lex 0 "0e19").1 ∧
    ¬ ReadsExactly "0e19".toList := by
  refine ⟨by decide +kernel, fun hexact => ?_⟩
  have hscaled : Scaled (['0'] ++ 'e' :: ([] ++ ['1', '9'])) 0 19 :=
    ⟨number?_eq_some_iff.1 (by decide), .inl rfl, .inl rfl, number?_eq_some_iff.1 (by decide)⟩
  have hzero : Denotes "0e19".toList 0 := .scaled hscaled
  have hread := (hexact 0).2 ⟨hzero, Nat.zero_le _⟩
  have hnone : value? "0e19".toList = none := by decide +kernel
  rw [hnone] at hread
  cases hread

end HdlLint.Syntax.Literal
