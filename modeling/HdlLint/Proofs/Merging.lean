import Mathlib.Data.List.Induction
import HdlLint.Analysis

/-!
# Merging keeps errors

A report has errors if a top unit failed or if one of its findings is an error, whether findings are
merged or not (`Report.hasErrors_build`). Merged findings have one fingerprint, which is a digest of a
stream of bytes. Of a digest nothing is known; that it does not take findings with different streams for
the same is an assumption (`Digest.CollisionFree`) wherever it matters which findings are merged.

The stream tells the severity: it is a sequence of fields, each with its length in front, so a field can
be read off its start (`Fingerprint.field_append_inj`), and the rule and the severity are the first of
them (`Finding.stream_eq_iff_remainder`).

The counts of a report are kept while its entries are gone through. They are the numbers of entries with
the rule and with the severity (`Report.ruleCount_eq`, `Report.severityCount_eq`).
-/

namespace HdlLint

/-! ### Reading a stream -/

namespace Fingerprint

theorem length_number (n : Nat) : (number n).length = 8 := by
  simp [number]

/-- A number that fits into eight bytes is told by them. -/
theorem number_inj {m n : Nat} (hm : m < Nat.pow 256 8) (hn : n < Nat.pow 256 8)
    (h : number m = number n) : m = n := by
  have hbyte : ∀ i < 8, m / 256 ^ i % 256 = n / 256 ^ i % 256 := by
    intro i hi
    have hget := congrArg (·[i]?) h
    simp only [number, List.getElem?_map, List.getElem?_range hi, Option.map_some,
      Option.some.injEq] at hget
    simpa using congrArg UInt8.toNat hget
  -- the first bytes tell the remainder, and all eight of them the number
  have hmod : ∀ k ≤ 8, m % 256 ^ k = n % 256 ^ k := by
    intro k hk
    induction k with
    | zero => simp [Nat.mod_one]
    | succ k ih => rw [Nat.mod_pow_succ, Nat.mod_pow_succ, ih (by omega), hbyte k (by omega)]
  have hall : m % Nat.pow 256 8 = n % Nat.pow 256 8 := hmod 8 (Nat.le_refl 8)
  rwa [Nat.mod_eq_of_lt hm, Nat.mod_eq_of_lt hn] at hall

theorem bytes_loop (bytes : ByteArray) (n i : Nat) (hn : bytes.size - i = n) (front : List UInt8) :
    ByteArray.toList.loop bytes i front = front.reverse ++ bytes.data.toList.drop i := by
  induction n generalizing i front with
  | zero =>
    have hi : ¬ i < bytes.size := by omega
    rw [ByteArray.toList.loop, if_neg hi, List.drop_of_length_le, List.append_nil]
    simpa using hi
  | succ n ih =>
    have hi : i < bytes.size := by omega
    rw [ByteArray.toList.loop, if_pos hi, ih (i + 1) (by omega), List.reverse_cons, List.append_assoc]
    have hdrop : bytes.data.toList.drop i = bytes.get! i :: bytes.data.toList.drop (i + 1) := by
      rw [List.drop_eq_getElem_cons (i := i) (by simpa using hi)]
      simp [ByteArray.get!, hi]
    rw [hdrop, List.singleton_append]

/-- The bytes of a text are those of its array. -/
theorem bytes_eq (bytes : ByteArray) : bytes.toList = bytes.data.toList := by
  rw [ByteArray.toList, bytes_loop bytes _ 0 rfl]
  simp

theorem field_append_inj {a b : String} {r s : List UInt8} (ha : a.utf8ByteSize < Nat.pow 256 8)
    (hb : b.utf8ByteSize < Nat.pow 256 8) (h : field a ++ r = field b ++ s) : a = b ∧ r = s := by
  simp only [field, List.append_assoc] at h
  obtain ⟨hnum, hrest⟩ := List.append_inj h (by rw [length_number, length_number])
  have hsize : a.utf8ByteSize = b.utf8ByteSize := number_inj ha hb hnum
  rw [bytes_eq, bytes_eq] at hrest
  obtain ⟨hbytes, hrs⟩ := List.append_inj hrest (by simpa using hsize)
  have harray : a.toUTF8 = b.toUTF8 := ByteArray.ext (Array.toList_inj.1 hbytes)
  exact ⟨String.toByteArray_inj.1 harray, hrs⟩

end Fingerprint

theorem Rule.utf8ByteSize_id_lt (r : Rule) : r.id.utf8ByteSize < Nat.pow 256 8 := by
  cases r <;> decide

theorem Rule.id_inj {r s : Rule} (h : r.id = s.id) : r = s := by
  revert h
  cases r <;> cases s <;> decide

theorem Severity.utf8ByteSize_word_lt (s : Severity) : s.word.utf8ByteSize < Nat.pow 256 8 := by
  cases s <;> decide

theorem Severity.word_inj {s t : Severity} (h : s.word = t.word) : s = t := by
  revert h
  cases s <;> cases t <;> decide

/-- What a stream tells besides the rule and the severity. -/
def Finding.remainder (f : Finding) : List UInt8 :=
  Fingerprint.field f.origin.text ++ Fingerprint.field f.subject ++ Fingerprint.field f.message ++
    Fingerprint.number f.span.file ++ Fingerprint.number f.span.start ++ Fingerprint.number f.span.stop ++
    f.notes.flatMap Fingerprint.field

theorem Finding.stream_eq_iff_remainder {f g : Finding} : f.stream = g.stream ↔
    f.rule = g.rule ∧ f.severity = g.severity ∧ f.remainder = g.remainder := by
  have hstream : ∀ h : Finding, h.stream =
      Fingerprint.field h.rule.id ++ (Fingerprint.field h.severity.word ++ h.remainder) := by
    intro h
    simp only [stream, remainder, List.append_assoc]
  rw [hstream, hstream]
  constructor
  · intro h
    obtain ⟨hid, h⟩ := Fingerprint.field_append_inj f.rule.utf8ByteSize_id_lt g.rule.utf8ByteSize_id_lt h
    obtain ⟨hword, h⟩ := Fingerprint.field_append_inj f.severity.utf8ByteSize_word_lt
      g.severity.utf8ByteSize_word_lt h
    exact ⟨Rule.id_inj hid, Severity.word_inj hword, h⟩
  · rintro ⟨hrule, hseverity, hrest⟩
    rw [hrule, hseverity, hrest]

/-! ### Digests -/

/-- Findings with different streams have different fingerprints. -/
def Digest.CollisionFree (digest : Digest) (fs : List Finding) : Prop :=
  ∀ f ∈ fs, ∀ g ∈ fs, f.fingerprint digest = g.fingerprint digest → f.stream = g.stream

instance (digest : Digest) (fs : List Finding) : Decidable (digest.CollisionFree fs) :=
  inferInstanceAs (Decidable (∀ f ∈ fs, ∀ g ∈ fs, _ → _))

theorem collisionFree_id (fs : List Finding) : Digest.CollisionFree id fs := fun _ _ _ _ h => h

/-- If findings are merged, then no two of those made in the run collide. -/
def Options.CollisionFree (o : Options) (l : Syntax.Library) : Prop :=
  o.dedup = true → o.digest.CollisionFree ((checkTops l o).flatMap (·.findings))

/-- The finding is the other one, made in the same or another instance. -/
def Finding.IsRepeatOf (f g : Finding) : Prop := f.top = g.top ∧ f.stream = g.stream

section
variable {digest : Digest} {fs : List Finding}

theorem Digest.CollisionFree.repeatKey_eq_iff (h : digest.CollisionFree fs) {f g : Finding} (hf : f ∈ fs)
    (hg : g ∈ fs) : f.repeatKey digest = g.repeatKey digest ↔ f.IsRepeatOf g := by
  rw [Finding.repeatKey, Finding.repeatKey, RepeatKey.mk.injEq]
  exact and_congr_right fun _ => ⟨h f hf g hg, congrArg digest⟩

/-! ### Groups of findings -/

/-- Each group has the key of its first member, and each finding has a group. -/
structure Grouped (digest : Digest) (fs : List Finding) (rs : List Repeats) : Prop where
  first : ∀ r ∈ rs, r.first ∈ fs ∧ r.key = r.first.repeatKey digest
  covered : ∀ f ∈ fs, ∃ r ∈ rs, r.key = f.repeatKey digest

theorem mem_addRepeat {key : RepeatKey} {f : Finding} {rs : List Repeats} {r : Repeats}
    (h : r ∈ addRepeat key f rs) :
    (∃ r' ∈ rs, r.key = r'.key ∧ r.first = r'.first) ∨ r.key = key ∧ r.first = f := by
  induction rs with
  | nil =>
    obtain rfl := List.mem_singleton.1 h
    exact .inr ⟨rfl, rfl⟩
  | cons x rs ih =>
    rw [addRepeat] at h
    split_ifs at h with hk
    · rcases List.mem_cons.1 h with rfl | h
      · exact .inl ⟨x, by simp, rfl, rfl⟩
      · exact .inl ⟨r, by simp [h], rfl, rfl⟩
    · rcases List.mem_cons.1 h with rfl | h
      · exact .inl ⟨r, by simp, rfl, rfl⟩
      · rcases ih h with ⟨r', hr', heq⟩ | heq
        · exact .inl ⟨r', by simp [hr'], heq⟩
        · exact .inr heq

theorem exists_mem_addRepeat {key k : RepeatKey} {f : Finding} {rs : List Repeats} :
    (∃ r ∈ addRepeat key f rs, r.key = k) ↔ k = key ∨ ∃ r ∈ rs, r.key = k := by
  induction rs with
  | nil => simp [addRepeat, eq_comm]
  | cons x rs ih =>
    rw [addRepeat]
    split_ifs with hk
    · subst hk
      simp [eq_comm]
    · simp only [List.mem_cons, or_and_right, exists_or, exists_eq_left, ih]
      exact or_left_comm

theorem Grouped.add {rs : List Repeats} (h : Grouped digest fs rs) (f : Finding) :
    Grouped digest (fs ++ [f]) (addRepeat (f.repeatKey digest) f rs) := by
  refine ⟨fun r hr => ?_, fun g hg => exists_mem_addRepeat.2 ?_⟩
  · rcases mem_addRepeat hr with ⟨r', hr', hkey, hfirst⟩ | ⟨hkey, hfirst⟩
    · obtain ⟨hmem, hk⟩ := h.first r' hr'
      rw [hkey, hfirst]
      exact ⟨List.mem_append_left _ hmem, hk⟩
    · rw [hkey, hfirst]
      exact ⟨by simp, rfl⟩
  · rcases List.mem_append.1 hg with hg | hg
    · exact .inr (h.covered g hg)
    · rw [List.mem_singleton.1 hg]
      exact .inl rfl

theorem grouped_groupRepeats (digest : Digest) (fs : List Finding) :
    Grouped digest fs (groupRepeats digest fs) := by
  induction fs using List.reverseRecOn with
  | nil => exact ⟨by simp [groupRepeats], by simp⟩
  | append_singleton fs f ih =>
    rw [groupRepeats, List.foldl_append]
    exact ih.add f

end

/-! ### Counts -/

section
variable {κ : Type} {rank : κ → Nat} {counts : List (κ × Nat)}

/-- The keys stand in the order of their ranks. -/
def Ranked (rank : κ → Nat) (counts : List (κ × Nat)) : Prop :=
  counts.Pairwise fun a b => rank a.1 < rank b.1

theorem mem_countOne {key : κ} {c : κ × Nat} (h : c ∈ countOne rank key counts) :
    rank c.1 = rank key ∨ ∃ c' ∈ counts, c'.1 = c.1 := by
  induction counts with
  | nil =>
    rw [List.mem_singleton.1 h]
    exact .inl rfl
  | cons x counts ih =>
    rw [countOne] at h
    split_ifs at h with hlt heq
    · rcases List.mem_cons.1 h with rfl | h
      · exact .inl rfl
      · exact .inr ⟨c, h, rfl⟩
    · rcases List.mem_cons.1 h with rfl | h
      · exact .inl heq.symm
      · exact .inr ⟨c, List.mem_cons_of_mem _ h, rfl⟩
    · rcases List.mem_cons.1 h with rfl | h
      · exact .inr ⟨_, List.mem_cons_self, rfl⟩
      · rcases ih h with hrank | ⟨c', hc', hkey⟩
        · exact .inl hrank
        · exact .inr ⟨c', List.mem_cons_of_mem _ hc', hkey⟩

theorem Ranked.countOne (h : Ranked rank counts) (key : κ) : Ranked rank (countOne rank key counts) := by
  induction counts with
  | nil => exact List.pairwise_singleton _ _
  | cons x counts ih =>
    obtain ⟨hx, hcounts⟩ := List.pairwise_cons.1 h
    rw [HdlLint.countOne]
    split_ifs with hlt heq
    · refine List.pairwise_cons.2 ⟨fun c hc => ?_, h⟩
      rcases List.mem_cons.1 hc with rfl | hc
      · exact hlt
      · exact Nat.lt_trans hlt (hx c hc)
    · exact List.pairwise_cons.2 ⟨hx, hcounts⟩
    · refine List.pairwise_cons.2 ⟨fun c hc => ?_, ih hcounts⟩
      rcases mem_countOne hc with hrank | ⟨c', hc', hkey⟩
      · change rank x.1 < rank c.1
        omega
      · exact hkey ▸ hx c' hc'

theorem ranked_foldl_countOne {α : Type} (key : α → κ) (xs : List α) :
    Ranked rank (xs.foldl (fun counts x => countOne rank (key x) counts) []) := by
  induction xs using List.reverseRecOn with
  | nil => exact .nil
  | append_singleton xs x ih =>
    rw [List.foldl_append]
    exact ih.countOne (key x)

variable [DecidableEq κ]

theorem lookup_cons_eq_ite (k : κ) (c : κ × Nat) (counts : List (κ × Nat)) :
    (c :: counts).lookup k = if k = c.1 then some c.2 else counts.lookup k := by
  obtain ⟨key, n⟩ := c
  by_cases h : k = key
  · rw [if_pos h, h, List.lookup_cons_self]
  · rw [if_neg h, List.lookup_cons, beq_false_of_ne h]

theorem Ranked.lookup_countOne (h : Ranked rank counts) (hrank : Function.Injective rank) (key k : κ) :
    ((HdlLint.countOne rank key counts).lookup k).getD 0 =
      (counts.lookup k).getD 0 + if k = key then 1 else 0 := by
  induction counts with
  | nil =>
    rw [HdlLint.countOne, lookup_cons_eq_ite]
    by_cases hkey : k = key <;> simp [hkey]
  | cons x counts ih =>
    obtain ⟨hx, hcounts⟩ := List.pairwise_cons.1 h
    rw [HdlLint.countOne]
    by_cases hlt : rank key < rank x.1
    · -- the key ranks before all others, so it is new
      have hbefore : ∀ c ∈ x :: counts, rank key < rank c.1 := by
        refine List.forall_mem_cons.2 ⟨hlt, fun c hc => ?_⟩
        exact Nat.lt_trans hlt (hx c hc)
      have hnone : (x :: counts).lookup key = none := by
        refine List.lookup_eq_none_iff.2 fun c hc => bne_iff_ne.2 fun heq => ?_
        exact absurd (hbefore c hc) (heq ▸ Nat.lt_irrefl _)
      rw [if_pos hlt, lookup_cons_eq_ite]
      by_cases hkey : k = key <;> simp [hkey, hnone]
    by_cases heq : rank key = rank x.1
    · rw [if_neg hlt, if_pos heq, lookup_cons_eq_ite, lookup_cons_eq_ite, hrank heq]
      by_cases hkey : k = x.1 <;> simp [hkey]
    · rw [if_neg hlt, if_neg heq, lookup_cons_eq_ite, lookup_cons_eq_ite]
      by_cases hkey : k = x.1
      · have hne : k ≠ key := fun heq' => heq (by rw [← heq', hkey])
        rw [if_pos hkey, if_pos hkey, if_neg hne, Nat.add_zero]
      · rw [if_neg hkey, if_neg hkey, ih hcounts]

/-- Counted one after the other, things come to as many of a key as there are. -/
theorem lookup_foldl_countOne {α : Type} (hrank : Function.Injective rank) (key : α → κ) (xs : List α)
    (k : κ) : ((xs.foldl (fun counts x => countOne rank (key x) counts) []).lookup k).getD 0 =
      xs.countP (key · == k) := by
  induction xs using List.reverseRecOn with
  | nil => rfl
  | append_singleton xs x ih =>
    rw [List.foldl_append, List.countP_append, List.countP_singleton, ← ih]
    refine ((ranked_foldl_countOne key xs).lookup_countOne hrank (key x) k).trans ?_
    simp only [beq_iff_eq, eq_comm (a := k)]

end

/-! ### Errors of a report -/

namespace Report

namespace Summary

theorem byRule_tally (entries : List Entry) (failures : Nat) : (tally entries failures).byRule =
    entries.foldl (fun counts e => countOne Rule.rank e.finding.rule counts) [] := by
  exact (List.foldl_hom Summary.byRule fun _ _ => rfl).symm

theorem bySeverity_tally (entries : List Entry) (failures : Nat) : (tally entries failures).bySeverity =
    entries.foldl (fun counts e => countOne Severity.rank e.finding.severity counts) [] := by
  exact (List.foldl_hom Summary.bySeverity fun _ _ => rfl).symm

end Summary

theorem ruleCount_eq (r : Report) (rule : Rule) :
    r.ruleCount rule = r.entries.countP (·.finding.rule == rule) := by
  have hrank : Function.Injective Rule.rank := by
    intro a b h
    revert h
    cases a <;> cases b <;> decide
  rw [ruleCount, Summary.ruleCount, summary, Summary.byRule_tally, lookup_foldl_countOne hrank]

theorem severityCount_eq (r : Report) (severity : Severity) :
    r.severityCount severity = r.entries.countP (·.finding.severity == severity) := by
  have hrank : Function.Injective Severity.rank := by
    intro a b h
    revert h
    cases a <;> cases b <;> decide
  rw [severityCount, Summary.severityCount, summary, Summary.bySeverity_tally,
    lookup_foldl_countOne hrank]

theorem errors_eq (r : Report) : r.errors = r.entries.countP (·.finding.severity == .error) :=
  r.severityCount_eq .error

theorem severity_entry (sources : Sources) (r : Repeats) :
    (r.entry sources).finding.severity = r.first.severity := by
  rw [Repeats.entry]
  split <;> rfl

/-- The entries are as grave as the findings, merged or not. -/
theorem exists_mem_entriesOf {digest : Digest} {dedup : Bool} (sources : Sources) {fs : List Finding}
    (h : dedup = true → digest.CollisionFree fs) (s : Severity) :
    (∃ e ∈ entriesOf digest dedup sources fs, e.finding.severity = s) ↔ ∃ f ∈ fs, f.severity = s := by
  cases dedup with
  | false => simp [entriesOf]
  | true =>
    have hgroups := grouped_groupRepeats digest fs
    simp only [entriesOf, if_true, List.mem_map]
    constructor
    · rintro ⟨_, ⟨r, hr, rfl⟩, hs⟩
      rw [severity_entry] at hs
      exact ⟨r.first, (hgroups.first r hr).1, hs⟩
    · rintro ⟨f, hf, hs⟩
      obtain ⟨r, hr, hkey⟩ := hgroups.covered f hf
      refine ⟨_, ⟨r, hr, rfl⟩, ?_⟩
      -- the entry has the severity of the first member of the group, whose key is that of `f`
      obtain ⟨hfirst, hkey'⟩ := hgroups.first r hr
      have hrepeat := ((h rfl).repeatKey_eq_iff hfirst hf).1 (hkey'.symm.trans hkey)
      rw [severity_entry, (Finding.stream_eq_iff_remainder.1 hrepeat.2).2.1, hs]

/-- A report has errors if a top unit failed or some finding is an error. -/
theorem hasErrors_build {digest : Digest} {dedup : Bool} (sources : Sources) {fs : List Finding}
    (h : dedup = true → digest.CollisionFree fs) (failures : List (String × Diagnostic)) :
    (build dedup sources fs failures digest).hasErrors = true ↔
      failures ≠ [] ∨ ∃ f ∈ fs, f.severity = .error := by
  rw [← exists_mem_entriesOf sources h]
  simp only [hasErrors, errors_eq, build, Bool.or_eq_true, Bool.not_eq_true', decide_eq_true_eq,
    List.countP_pos_iff, List.mem_mergeSort, beq_iff_eq]
  refine or_congr_left ?_
  rw [List.isEmpty_eq_false_iff, ← List.length_pos_iff, ← List.length_pos_iff, List.length_mergeSort,
    List.length_map]

end Report

end HdlLint
