import Mathlib.Data.List.Perm.Basic
import Mathlib.Data.List.Nodup
import Mathlib.Data.List.Pairwise
import HdlLint.Proofs.Comparison
import HdlLint.Proofs.Merging

/-!
# Merging loses and invents nothing

`Report.build_merges`: the entries of a report with merging stand for groups of findings. The groups
together are the findings, each as often as it was made, and two findings are in one group exactly if
they agree in all but their paths (`Finding.Same`). An entry is the first finding of its group, shown
at the smallest of the paths of the group, all of which it lists in ascending order (`Entry.Merges`).
Entries are in order, and those that compare equal are in the order of their first findings.

Findings are grouped by their fingerprints. The streams of which these are digests are the same exactly
if the findings are (`Finding.stream_eq_iff`, `Finding.isRepeatOf_iff_same`). What one more finding does to
the groups is said once (`addRepeat_of_mem`, `addRepeat_of_not_mem`), and `Partitioned` is what it keeps.
-/

namespace HdlLint
open Design (Path)

/-! ### Fingerprints -/

namespace Fingerprint

theorem number_append_inj {m n : Nat} {r s : List UInt8} (hm : m < Nat.pow 256 8)
    (hn : n < Nat.pow 256 8) (h : number m ++ r = number n ++ s) : m = n ∧ r = s := by
  obtain ⟨hnum, hrest⟩ := List.append_inj h (by rw [length_number, length_number])
  exact ⟨number_inj hm hn hnum, hrest⟩

theorem field_ne_nil (s : String) : field s ≠ [] := by
  intro h
  have hlen := congrArg List.length h
  rw [field, List.length_append, length_number, List.length_nil] at hlen
  omega

theorem flatMap_field_inj {as bs : List String} (has : ∀ a ∈ as, a.utf8ByteSize < Nat.pow 256 8)
    (hbs : ∀ b ∈ bs, b.utf8ByteSize < Nat.pow 256 8) (h : as.flatMap field = bs.flatMap field) :
    as = bs := by
  induction as generalizing bs with
  | nil =>
    cases bs with
    | nil => rfl
    | cons b bs =>
      rw [List.flatMap_cons] at h
      exact absurd (List.append_eq_nil_iff.1 h.symm).1 (field_ne_nil b)
  | cons a as ih =>
    cases bs with
    | nil =>
      rw [List.flatMap_cons] at h
      exact absurd (List.append_eq_nil_iff.1 h).1 (field_ne_nil a)
    | cons b bs =>
      rw [List.flatMap_cons, List.flatMap_cons] at h
      rw [List.forall_mem_cons] at has hbs
      obtain ⟨rfl, hrest⟩ := field_append_inj has.1 hbs.1 h
      rw [ih has.2 hbs.2 hrest]

end Fingerprint

namespace Finding

/-- Its texts are shorter and its numbers smaller than eight bytes can tell. -/
structure Fits (f : Finding) : Prop where
  origin : f.origin.text.utf8ByteSize < Nat.pow 256 8
  subject : f.subject.utf8ByteSize < Nat.pow 256 8
  message : f.message.utf8ByteSize < Nat.pow 256 8
  file : f.span.file < Nat.pow 256 8
  start : f.span.start < Nat.pow 256 8
  stop : f.span.stop < Nat.pow 256 8
  notes : ∀ n ∈ f.notes, n.utf8ByteSize < Nat.pow 256 8

/-- The stream tells all that it is made of. -/
theorem stream_eq_iff {f g : Finding} (hf : f.Fits) (hg : g.Fits) :
    f.stream = g.stream ↔ f.rule = g.rule ∧ f.severity = g.severity ∧
      f.origin.text = g.origin.text ∧ f.subject = g.subject ∧ f.message = g.message ∧
      f.span = g.span ∧ f.notes = g.notes := by
  rw [stream_eq_iff_remainder]
  refine and_congr_right fun _ => and_congr_right fun _ => ⟨fun h => ?_, ?_⟩
  · simp only [remainder, List.append_assoc] at h
    -- the fields are read off one after the other
    obtain ⟨horigin, h⟩ := Fingerprint.field_append_inj hf.origin hg.origin h
    obtain ⟨hsubject, h⟩ := Fingerprint.field_append_inj hf.subject hg.subject h
    obtain ⟨hmessage, h⟩ := Fingerprint.field_append_inj hf.message hg.message h
    obtain ⟨hfile, h⟩ := Fingerprint.number_append_inj hf.file hg.file h
    obtain ⟨hstart, h⟩ := Fingerprint.number_append_inj hf.start hg.start h
    obtain ⟨hstop, h⟩ := Fingerprint.number_append_inj hf.stop hg.stop h
    have hspan : f.span = g.span := by
      cases hs : f.span
      cases ht : g.span
      simp_all
    exact ⟨horigin, hsubject, hmessage, hspan, Fingerprint.flatMap_field_inj hf.notes hg.notes h⟩
  · rintro ⟨horigin, hsubject, hmessage, hspan, hnotes⟩
    simp only [remainder, horigin, hsubject, hmessage, hspan, hnotes]

/-- The findings are made for one top unit and agree in all that is said of them but the path. -/
def Same (f g : Finding) : Prop :=
  f.top = g.top ∧ f.rule = g.rule ∧ f.severity = g.severity ∧ f.origin.text = g.origin.text ∧
    f.subject = g.subject ∧ f.message = g.message ∧ f.span = g.span ∧ f.notes = g.notes

instance (f g : Finding) : Decidable (f.Same g) := inferInstanceAs (Decidable (_ ∧ _))

theorem isRepeatOf_iff_same {f g : Finding} (hf : f.Fits) (hg : g.Fits) : f.IsRepeatOf g ↔ f.Same g := by
  rw [IsRepeatOf, stream_eq_iff hf hg, Same]

end Finding

/-! ### Paths of a group -/

def Ascending (ps : List Path) : Prop := ps.Pairwise fun p q => p.compare q = .lt

theorem mem_collapseRuns {q : Path} {ps : List Path} : q ∈ collapseRuns ps ↔ q ∈ ps := by
  fun_induction collapseRuns ps with
  | case1 => rfl
  | case2 => rfl
  | case3 p ps ih =>
    rw [ih]
    simp
  | case4 p p' ps hne ih => rw [List.mem_cons, ih, ← List.mem_cons]

/-- Of paths in order, those that are kept ascend. -/
theorem ascending_collapseRuns {ps : List Path} (h : ps.Pairwise fun p q => (p.compare q).isLE = true) :
    Ascending (collapseRuns ps) := by
  fun_induction collapseRuns ps with
  | case1 => exact .nil
  | case2 => exact List.pairwise_singleton _ _
  | case3 p ps ih => exact ih (List.pairwise_cons.1 h).2
  | case4 p p' ps hne ih =>
    obtain ⟨hp, hps⟩ := List.pairwise_cons.1 h
    have hps' := List.pairwise_cons.1 hps
    -- the next path is another one, and the others do not come before it
    have hlt : p.compare p' = .lt := by
      rcases Ordering.isLE_iff_eq_lt_or_eq_eq.1 (hp p' List.mem_cons_self) with hlt | heq
      · exact hlt
      · exact absurd (Std.LawfulEqCmp.eq_of_compare heq) hne
    refine List.pairwise_cons.2 ⟨fun q hq => ?_, ih hps⟩
    rcases List.mem_cons.1 (mem_collapseRuns.1 hq) with rfl | hq
    · exact hlt
    · exact Std.TransCmp.lt_of_lt_of_isLE hlt (hps'.1 q hq)

/-- The entry stands for the findings of a group, which are in the order in which they were made. -/
structure Entry.Merges (sources : Sources) (e : Entry) (group : List Finding) : Prop where
  first : ∃ f, group.head? = some f ∧ e.finding = { f with path := e.path } ∧
    e.location = sources.location f.span
  ascending : Ascending e.paths
  paths : ∀ p, p ∈ e.paths ↔ ∃ f ∈ group, f.path = p

theorem Repeats.entry_merges (sources : Sources) {r : Repeats} {rest : List Finding}
    (h : r.paths = rest.map (·.path)) : (r.entry sources).Merges sources (r.first :: rest) := by
  have hsorted : ((r.first.path :: r.paths).mergeSort fun p q => (p.compare q).isLE).Pairwise
      fun p q => (p.compare q).isLE = true :=
    List.pairwise_mergeSort (fun _ _ _ => Std.TransCmp.isLE_trans) isLE_or_isLE _
  have hasc := ascending_collapseRuns hsorted
  have hmem : ∀ q, q ∈ collapseRuns ((r.first.path :: r.paths).mergeSort fun p q => (p.compare q).isLE) ↔
      q = r.first.path ∨ q ∈ r.paths := fun q => by
    rw [mem_collapseRuns, List.mem_mergeSort, List.mem_cons]
  rw [entry]
  dsimp only
  split
  · next hnil =>
    -- the first path is among them
    have hfirst := (hmem r.first.path).2 (.inl rfl)
    rw [hnil] at hfirst
    exact absurd hfirst List.not_mem_nil
  · next p ps hcons =>
    rw [hcons] at hasc hmem
    refine ⟨⟨r.first, rfl, rfl, rfl⟩, hasc, fun q => (hmem q).trans ?_⟩
    rw [h]
    simp [eq_comm]

/-! ### Groups -/

/-- Put together, the members with each key are all there is. -/
theorem flatten_filter_perm {α κ : Type} [DecidableEq κ] (key : α → κ) {ks : List κ}
    (hnodup : ks.Nodup) {xs : List α} (hcovered : ∀ x ∈ xs, key x ∈ ks) :
    (ks.map fun k => xs.filter (key · == k)).flatten.Perm xs := by
  induction ks generalizing xs with
  | nil =>
    have hnil : xs = [] := List.eq_nil_iff_forall_not_mem.2 fun x hx => List.not_mem_nil (hcovered x hx)
    rw [hnil]
    exact .nil
  | cons k ks ih =>
    obtain ⟨hk, hks⟩ := List.nodup_cons.1 hnodup
    have hcovered' : ∀ x ∈ xs.filter fun x => !(key x == k), key x ∈ ks := by
      intro x hx
      obtain ⟨hx, hne⟩ := List.mem_filter.1 hx
      rcases List.mem_cons.1 (hcovered x hx) with heq | hmem
      · simp [heq] at hne
      · exact hmem
    -- those with another key are not among those with this one
    have hsame : (ks.map fun k' => (xs.filter fun x => !(key x == k)).filter (key · == k')) =
        ks.map fun k' => xs.filter (key · == k') := by
      refine List.map_congr_left fun k' hk' => ?_
      rw [List.filter_filter]
      refine List.filter_congr fun x _ => ?_
      have hne : k' ≠ k := fun heq => hk (heq ▸ hk')
      by_cases hx : key x = k' <;> simp [hx, hne]
    rw [List.map_cons, List.flatten_cons, ← hsame]
    exact ((ih hks hcovered').append_left _).trans (List.filter_append_perm _ xs)

theorem addRepeat_of_not_mem {key : RepeatKey} {f : Finding} {rs : List Repeats}
    (h : ∀ r ∈ rs, r.key ≠ key) : addRepeat key f rs = rs ++ [⟨key, f, []⟩] := by
  induction rs with
  | nil => rfl
  | cons r rs ih =>
    obtain ⟨hr, hrs⟩ := List.forall_mem_cons.1 h
    rw [addRepeat, if_neg hr, ih hrs, List.cons_append]

/-- The group with one more path, if it is the one with the key. -/
def Repeats.addTo (key : RepeatKey) (p : Path) (r : Repeats) : Repeats :=
  if r.key = key then { r with paths := r.paths ++ [p] } else r

theorem Repeats.addTo_of_ne {key : RepeatKey} {p : Path} {r : Repeats} (h : r.key ≠ key) :
    r.addTo key p = r := if_neg h

@[simp]
theorem Repeats.key_addTo (key : RepeatKey) (p : Path) (r : Repeats) : (r.addTo key p).key = r.key := by
  rw [addTo]
  split_ifs <;> rfl

@[simp]
theorem Repeats.first_addTo (key : RepeatKey) (p : Path) (r : Repeats) :
    (r.addTo key p).first = r.first := by
  rw [addTo]
  split_ifs <;> rfl

theorem addRepeat_of_mem {f : Finding} {r : Repeats} {rs : List Repeats}
    (hnodup : (rs.map (·.key)).Nodup) (hr : r ∈ rs) :
    addRepeat r.key f rs = rs.map (Repeats.addTo r.key f.path) := by
  induction rs with
  | nil => exact absurd hr List.not_mem_nil
  | cons x rs ih =>
    rw [List.map_cons, List.nodup_cons] at hnodup
    rw [addRepeat, List.map_cons, Repeats.addTo]
    split_ifs with hkey
    · -- the keys of the others are different
      have hrest : rs.map (Repeats.addTo r.key f.path) = rs := by
        refine (List.map_congr_left fun y hy => ?_).trans (List.map_id rs)
        exact Repeats.addTo_of_ne fun hy' => hnodup.1 (List.mem_map.2 ⟨y, hy, hy'.trans hkey.symm⟩)
      rw [hrest]
    · rcases List.mem_cons.1 hr with rfl | hr
      · exact absurd rfl hkey
      · rw [ih hnodup.2 hr]

section
variable {digest : Digest}

/-- The findings with the key. -/
def withKey (digest : Digest) (fs : List Finding) (key : RepeatKey) : List Finding :=
  fs.filter (·.repeatKey digest == key)

/-- There is one group for each key, in the order of their first findings, and its paths are those of
the findings with the key. -/
structure Partitioned (digest : Digest) (fs : List Finding) (rs : List Repeats) : Prop extends
    Grouped digest fs rs where
  keys : (rs.map (·.key)).Nodup
  group : ∀ r ∈ rs, ∃ rest, withKey digest fs r.key = r.first :: rest ∧ r.paths = rest.map (·.path)
  order : rs.Pairwise fun r s => fs.idxOf r.first < fs.idxOf s.first

theorem withKey_concat (fs : List Finding) (f : Finding) (key : RepeatKey) :
    withKey digest (fs ++ [f]) key =
      withKey digest fs key ++ if f.repeatKey digest = key then [f] else [] := by
  simp [withKey, List.filter_append, List.filter_cons]

theorem Partitioned.add {fs : List Finding} {rs : List Repeats} (h : Partitioned digest fs rs)
    (f : Finding) : Partitioned digest (fs ++ [f]) (addRepeat (f.repeatKey digest) f rs) := by
  have hgrouped := h.toGrouped.add f
  have horder : rs.Pairwise fun r s => (fs ++ [f]).idxOf r.first < (fs ++ [f]).idxOf s.first := by
    refine h.order.imp_of_mem fun {r s} hr hs hlt => ?_
    rwa [List.idxOf_append_of_mem (h.first r hr).1, List.idxOf_append_of_mem (h.first s hs).1]
  by_cases hmem : ∃ r ∈ rs, r.key = f.repeatKey digest
  · obtain ⟨r, hr, hkey⟩ := hmem
    rw [← hkey, addRepeat_of_mem h.keys hr] at hgrouped ⊢
    refine ⟨hgrouped, ?_, fun s hs => ?_, ?_⟩
    · simpa [Function.comp_def] using h.keys
    · obtain ⟨t, ht, rfl⟩ := List.mem_map.1 hs
      obtain ⟨rest, hgroup, hpaths⟩ := h.group t ht
      rw [Repeats.key_addTo, Repeats.first_addTo, withKey_concat, hgroup, Repeats.addTo, ← hkey]
      by_cases heq : t.key = r.key
      · refine ⟨rest ++ [f], ?_, ?_⟩
        · rw [if_pos heq.symm, List.cons_append]
        · rw [if_pos heq, List.map_append, hpaths, List.map_singleton]
      · refine ⟨rest, ?_, ?_⟩
        · rw [if_neg (Ne.symm heq), List.append_nil]
        · rw [if_neg heq, hpaths]
    · simpa [List.pairwise_map] using horder
  · have hnew : ∀ r ∈ rs, r.key ≠ f.repeatKey digest := fun r hr hkey => hmem ⟨r, hr, hkey⟩
    have hnone : ∀ g ∈ fs, g.repeatKey digest ≠ f.repeatKey digest := by
      intro g hg hkey
      obtain ⟨r, hr, hr'⟩ := h.covered g hg
      exact hnew r hr (hr'.trans hkey)
    rw [addRepeat_of_not_mem hnew] at hgrouped ⊢
    refine ⟨hgrouped, ?_, fun s hs => ?_, ?_⟩
    · rw [List.map_append, List.map_singleton]
      refine List.nodup_append.2 ⟨h.keys, List.nodup_singleton _, fun k hk k' hk' => ?_⟩
      obtain ⟨r, hr, rfl⟩ := List.mem_map.1 hk
      rw [List.mem_singleton.1 hk']
      exact hnew r hr
    · rcases List.mem_append.1 hs with hs | hs
      · obtain ⟨rest, hgroup, hpaths⟩ := h.group s hs
        refine ⟨rest, ?_, hpaths⟩
        rw [withKey_concat, if_neg (Ne.symm (hnew s hs)), List.append_nil, hgroup]
      · obtain rfl := List.mem_singleton.1 hs
        have hnil : withKey digest fs (f.repeatKey digest) = [] :=
          List.filter_eq_nil_iff.2 fun g hg => by simpa using hnone g hg
        exact ⟨[], by rw [withKey_concat, hnil, if_pos rfl, List.nil_append], rfl⟩
    · refine List.pairwise_append.2 ⟨horder, List.pairwise_singleton _ _, fun r hr s hs => ?_⟩
      obtain rfl := List.mem_singleton.1 hs
      have hf : f ∉ fs := fun hf => hnone f hf rfl
      have hfirst := (h.first r hr).1
      rw [List.idxOf_append_of_mem hfirst, List.idxOf_append_of_notMem hf]
      have hlt := List.idxOf_lt_length_of_mem hfirst
      omega

theorem partitioned_groupRepeats (digest : Digest) (fs : List Finding) :
    Partitioned digest fs (groupRepeats digest fs) := by
  induction fs using List.reverseRecOn with
  | nil =>
    exact ⟨grouped_groupRepeats digest [], List.nodup_nil, by simp [groupRepeats], List.Pairwise.nil⟩
  | append_singleton fs f ih =>
    rw [groupRepeats, List.foldl_append]
    exact ih.add f

end

/-! ### Order of entries -/

/-- What is equal in a list that is put in order stays in the order of the list. -/
theorem pairwise_mergeSort_stable {α : Type} {le : α → α → Bool} {R : α → α → Prop}
    (htrans : ∀ a b c, le a b = true → le b c = true → le a c = true)
    (htotal : ∀ a b, (le a b || le b a) = true) {xs : List α} (hxs : xs.Pairwise R) :
    (xs.mergeSort le).Pairwise fun a b => le a b = true ∧ (le b a = true → R a b) := by
  -- the places in the list go along
  rw [← List.mergeSort_zipIdx, List.pairwise_map]
  have hsorted := List.pairwise_mergeSort (List.zipIdxLE_trans htrans) (List.zipIdxLE_total htotal)
    xs.zipIdx
  have hplaces : (xs.zipIdx.mergeSort (List.zipIdxLE le)).Pairwise fun a b => a.2 ≠ b.2 := by
    refine List.pairwise_map.1 ?_
    have hperm := (List.mergeSort_perm xs.zipIdx (List.zipIdxLE le)).map (·.2)
    refine hperm.nodup_iff.2 ?_
    rw [List.zipIdx_map_snd]
    exact List.nodup_range'
  refine (hsorted.and hplaces).imp_of_mem fun {a b} ha hb hab => ?_
  obtain ⟨hle, hne⟩ := hab
  unfold List.zipIdxLE at hle
  split_ifs at hle with hab hba
  · refine ⟨hab, fun _ => ?_⟩
    have ha' := List.getElem?_eq_some_iff.1 (List.mem_zipIdx_iff_getElem?.1 (List.mem_mergeSort.1 ha))
    have hb' := List.getElem?_eq_some_iff.1 (List.mem_zipIdx_iff_getElem?.1 (List.mem_mergeSort.1 hb))
    obtain ⟨hi, ha'⟩ := ha'
    obtain ⟨hj, hb'⟩ := hb'
    rw [← ha', ← hb']
    exact List.pairwise_iff_getElem.1 hxs _ _ hi hj (Nat.lt_of_le_of_ne (of_decide_eq_true hle) hne)
  · exact ⟨hab, fun h => absurd h hba⟩

namespace Report

/-- The first entry belongs before the second one: by its place, or because the first of its findings
was made earlier. -/
def Precedes (fs : List Finding) (a b : Entry × List Finding) : Prop :=
  a.1.compare b.1 = .lt ∨ a.1.compare b.1 = .eq ∧
    ∃ f g, a.2.head? = some f ∧ b.2.head? = some g ∧ fs.idxOf f < fs.idxOf g

/-- The entries stand for groups of the findings. -/
structure Merging (sources : Sources) (fs : List Finding) (entries : List Entry)
    (merged : List (Entry × List Finding)) : Prop where
  entries : entries = merged.map (·.1)
  /-- No finding is lost or made up. -/
  whole : (merged.map (·.2)).flatten.Perm fs
  /-- In a group the findings keep their order. -/
  group : ∀ m ∈ merged, ∃ f : Finding, m.2 = fs.filter fun g => f.Same g
  shared : ∀ f ∈ fs, ∀ g ∈ fs, (∃ m ∈ merged, f ∈ m.2 ∧ g ∈ m.2) ↔ f.Same g
  merges : ∀ m ∈ merged, m.1.Merges sources m.2
  order : merged.Pairwise (Precedes fs)

/-- A group with its entry. -/
def mergedOf (digest : Digest) (sources : Sources) (fs : List Finding) (r : Repeats) :
    Entry × List Finding :=
  (r.entry sources, withKey digest fs r.key)

section
variable {digest : Digest} {fs : List Finding} (hdigest : digest.CollisionFree fs)
  (hfits : ∀ f ∈ fs, f.Fits)
include hdigest hfits

theorem repeatKey_eq_iff_same {f g : Finding} (hf : f ∈ fs) (hg : g ∈ fs) :
    f.repeatKey digest = g.repeatKey digest ↔ f.Same g :=
  (hdigest.repeatKey_eq_iff hf hg).trans (Finding.isRepeatOf_iff_same (hfits f hf) (hfits g hg))

theorem withKey_eq_filter_same {f : Finding} (hf : f ∈ fs) :
    withKey digest fs (f.repeatKey digest) = fs.filter fun g => f.Same g := by
  refine List.filter_congr fun g hg => ?_
  rw [beq_eq_decide]
  exact decide_eq_decide.2 (eq_comm.trans (repeatKey_eq_iff_same hdigest hfits hf hg))

theorem merging_of_perm (sources : Sources) {rs : List Repeats}
    (hperm : rs.Perm (groupRepeats digest fs))
    (horder : (rs.map (mergedOf digest sources fs)).Pairwise (Precedes fs)) :
    Merging sources fs (rs.map (Repeats.entry sources)) (rs.map (mergedOf digest sources fs)) := by
  have hparts := partitioned_groupRepeats digest fs
  have hfirst : ∀ r ∈ rs, r.first ∈ fs ∧ r.key = r.first.repeatKey digest := fun r hr =>
    hparts.first r (hperm.mem_iff.1 hr)
  have hcovered : ∀ f ∈ fs, ∃ r ∈ rs, r.key = f.repeatKey digest := by
    intro f hf
    obtain ⟨r, hr, hkey⟩ := hparts.covered f hf
    exact ⟨r, hperm.mem_iff.2 hr, hkey⟩
  refine ⟨?_, ?_, fun m hm => ?_, fun f hf g hg => ⟨?_, fun hsame => ?_⟩, fun m hm => ?_, horder⟩
  · rw [List.map_map]
    rfl
  · have hkeys : (rs.map (·.key)).Nodup := (hperm.map _).nodup_iff.2 hparts.keys
    have hflat := flatten_filter_perm (Finding.repeatKey digest) hkeys fun f hf =>
      List.mem_map.2 (hcovered f hf)
    rwa [List.map_map] at hflat ⊢
  · obtain ⟨r, hr, rfl⟩ := List.mem_map.1 hm
    refine ⟨r.first, ?_⟩
    rw [mergedOf, (hfirst r hr).2, withKey_eq_filter_same hdigest hfits (hfirst r hr).1]
  · rintro ⟨m, hm, hf', hg'⟩
    obtain ⟨r, hr, rfl⟩ := List.mem_map.1 hm
    have hf'' := (List.mem_filter.1 hf').2
    have hg'' := (List.mem_filter.1 hg').2
    rw [beq_iff_eq] at hf'' hg''
    exact (repeatKey_eq_iff_same hdigest hfits hf hg).1 (hf''.trans hg''.symm)
  · obtain ⟨r, hr, hkey⟩ := hcovered f hf
    have hg' := (repeatKey_eq_iff_same hdigest hfits hf hg).2 hsame
    refine ⟨_, List.mem_map_of_mem hr, List.mem_filter.2 ⟨hf, ?_⟩, List.mem_filter.2 ⟨hg, ?_⟩⟩
    · exact beq_iff_eq.2 hkey.symm
    · exact beq_iff_eq.2 (hg'.symm.trans hkey.symm)
  · obtain ⟨r, hr, rfl⟩ := List.mem_map.1 hm
    obtain ⟨rest, hgroup, hpaths⟩ := hparts.group r (hperm.mem_iff.1 hr)
    rw [mergedOf, hgroup]
    exact r.entry_merges sources hpaths

theorem exists_merging (sources : Sources) (failures : List (String × Diagnostic)) :
    ∃ merged, Merging sources fs (build true sources fs failures digest).entries merged := by
  have hparts := partitioned_groupRepeats digest fs
  set le : Repeats → Repeats → Bool := fun r s =>
    ((r.entry sources).compare (s.entry sources)).isLE
  have hsort : (build true sources fs failures digest).entries =
      ((groupRepeats digest fs).mergeSort le).map (Repeats.entry sources) := by
    have hmap : ((groupRepeats digest fs).mergeSort le).map (Repeats.entry sources) =
        ((groupRepeats digest fs).map (Repeats.entry sources)).mergeSort
          fun a b => (a.compare b).isLE :=
      List.map_mergeSort fun _ _ _ _ => rfl
    rw [hmap, build, entriesOf, if_pos rfl]
  have hperm := List.mergeSort_perm (groupRepeats digest fs) le
  have hstable : ((groupRepeats digest fs).mergeSort le).Pairwise fun r s => le r s = true ∧
      (le s r = true → fs.idxOf r.first < fs.idxOf s.first) := by
    exact pairwise_mergeSort_stable (fun r s t => Std.TransCmp.isLE_trans)
      (fun _ _ => isLE_or_isLE _ _) hparts.order
  rw [hsort]
  refine ⟨_, merging_of_perm hdigest hfits sources hperm (List.pairwise_map.2 ?_)⟩
  refine hstable.imp_of_mem fun {r s} hr hs hrs => ?_
  have hhead : ∀ r ∈ (groupRepeats digest fs).mergeSort le,
      (withKey digest fs r.key).head? = some r.first := by
    intro r hr
    obtain ⟨rest, hgroup, -⟩ := hparts.group r (hperm.mem_iff.1 hr)
    rw [hgroup, List.head?_cons]
  rcases Ordering.isLE_iff_eq_lt_or_eq_eq.1 hrs.1 with hlt | heq
  · exact .inl hlt
  · have hback : le s r = true := Ordering.isLE_of_eq_eq (Std.OrientedCmp.eq_symm heq)
    exact .inr ⟨heq, r.first, s.first, hhead r hr, hhead s hs, hrs.2 hback⟩

end

/-! ### The entry of a finding -/

/-- The one entry into which the finding is merged. -/
structure EntryFor (r : Report) (f : Finding) (e : Entry) : Prop where
  mem : e ∈ r.entries
  same : e.finding.IsRepeatOf f
  unique : ∀ e' ∈ r.entries, e'.finding.IsRepeatOf f → e' = e

theorem isRepeatOf_entry (sources : Sources) (r : Repeats) :
    (r.entry sources).finding.IsRepeatOf r.first := by
  rw [Repeats.entry]
  split <;> exact ⟨rfl, rfl⟩

/-- Each finding has an entry, which holds the paths of all findings with its key. -/
theorem exists_entryFor (sources : Sources) {digest : Digest} {fs : List Finding}
    (hdigest : digest.CollisionFree fs) (failures : List (String × Diagnostic)) {f : Finding}
    (hf : f ∈ fs) : ∃ e, (build true sources fs failures digest).EntryFor f e ∧
      ∀ g ∈ fs, g.IsRepeatOf f → g.path ∈ e.paths := by
  have hparts := partitioned_groupRepeats digest fs
  have hmem : ∀ {e}, e ∈ (build true sources fs failures digest).entries ↔
      ∃ r ∈ groupRepeats digest fs, r.entry sources = e := by
    intro e
    rw [build, entriesOf, if_pos rfl, List.mem_mergeSort, List.mem_map]
  -- the entry of a group is a repeat of the same findings as the first of the group
  have hentry : ∀ r : Repeats, (r.entry sources).finding.IsRepeatOf f ↔ r.first.IsRepeatOf f := by
    intro r
    obtain ⟨htop, hstream⟩ := isRepeatOf_entry sources r
    rw [Finding.IsRepeatOf, htop, hstream, Finding.IsRepeatOf]
  have hkeys : ∀ g ∈ fs, g.IsRepeatOf f ↔ g.repeatKey digest = f.repeatKey digest :=
    fun g hg => (hdigest.repeatKey_eq_iff hg hf).symm
  obtain ⟨r, hr, hkey⟩ := hparts.covered f hf
  obtain ⟨hfirst, hfirstKey⟩ := hparts.first r hr
  obtain ⟨rest, hgroup, hpaths⟩ := hparts.group r hr
  refine ⟨r.entry sources, ⟨hmem.2 ⟨r, hr, rfl⟩, ?_, fun e' he' hsame => ?_⟩, fun g hg hsame => ?_⟩
  · exact (hentry r).2 ((hkeys r.first hfirst).2 (hfirstKey.symm.trans hkey))
  · obtain ⟨r', hr', rfl⟩ := hmem.1 he'
    obtain ⟨hfirst', hfirstKey'⟩ := hparts.first r' hr'
    have hkey' := (hkeys r'.first hfirst').1 ((hentry r').1 hsame)
    rw [List.inj_on_of_nodup_map hparts.keys hr' hr (hfirstKey'.trans (hkey'.trans hkey.symm))]
  · refine ((r.entry_merges sources hpaths).paths g.path).2 ⟨g, ?_, rfl⟩
    rw [← hgroup, hkey, ← (hkeys g hg).1 hsame]
    exact List.mem_filter.2 ⟨hg, beq_self_eq_true _⟩

/-! ### Counts -/

theorem foldr_countP {α κ : Type} [DecidableEq κ] (key : α → κ) {ks : List κ} (hnodup : ks.Nodup)
    {xs : List α} (hcovered : ∀ x ∈ xs, key x ∈ ks) :
    (ks.map fun k => xs.countP (key · == k)).foldr (· + ·) 0 = xs.length := by
  rw [← (flatten_filter_perm key hnodup hcovered).length_eq, List.length_flatten, List.map_map]
  simp only [List.countP_eq_length_filter]
  rfl

theorem foldr_ruleCount (r : Report) :
    (Rule.all.map r.ruleCount).foldr (· + ·) 0 = r.entries.length := by
  rw [funext r.ruleCount_eq]
  refine foldr_countP (fun e : Entry => e.finding.rule) (by decide) fun e _ => ?_
  cases e.finding.rule <;> decide

theorem foldr_severityCount (r : Report) :
    ([Severity.warning, .error].map r.severityCount).foldr (· + ·) 0 = r.entries.length := by
  rw [funext r.severityCount_eq]
  refine foldr_countP (fun e : Entry => e.finding.severity) (by decide) fun e _ => ?_
  cases e.finding.severity <;> decide

/-- Merging tells which findings are the same, where each of them was made, and how many there are, and
does not hide an error, if the digest of the findings has no collision. -/
theorem build_merges (sources : Sources) {fs : List Finding} (hfits : ∀ f ∈ fs, f.Fits) {digest : Digest}
    (hdigest : digest.CollisionFree fs) (failures : List (String × Diagnostic)) :
    let merged := build true sources fs failures digest
    let unmerged := build false sources fs failures digest
    (∃ groups, Merging sources fs merged.entries groups) ∧
    (Rule.all.map merged.ruleCount).foldr (· + ·) 0 = merged.entries.length ∧
    ([Severity.warning, .error].map merged.severityCount).foldr (· + ·) 0 = merged.entries.length ∧
    merged.hasErrors = unmerged.hasErrors := by
  refine ⟨exists_merging hdigest hfits sources failures, foldr_ruleCount _, foldr_severityCount _, ?_⟩
  have hunmerged : false = true → digest.CollisionFree fs := fun _ => hdigest
  rw [Bool.eq_iff_iff, hasErrors_build sources fun _ => hdigest, hasErrors_build sources hunmerged]

/-- A latch that was found in two instances, and another fault of the second one. -/
def latchTwice : List Finding :=
  let latch (label : String) : Finding :=
    { rule := .latchInferred, severity := .error, top := "pair", path := [.inst label],
      origin := .process "half" "rtl" 0, subject := "y", message := "signal `y` is not always assigned",
      span := ⟨0, 40, 52⟩, notes := ["not assigned if `en` is low"] }
  [latch "u1", latch "u0", { latch "u0" with rule := .sensitivityIncomplete, subject := "en" }]

/-- A digest of eight bytes. -/
def checksum : Digest := fun bytes =>
  Fingerprint.number (bytes.foldl (fun n b => 257 * n + b.toNat) 0)

theorem build_merges_latchTwice :
    latchTwice.map (fun f => latchTwice.countP fun g => f.Same g) = [2, 2, 1] ∧
    (∀ f ∈ latchTwice, f.Fits) ∧ checksum.CollisionFree latchTwice ∧
    (∃ groups, Merging {} latchTwice (build true {} latchTwice [] checksum).entries groups) ∧
    (build true {} latchTwice [] checksum).hasErrors =
      (build false {} latchTwice [] checksum).hasErrors := by
  have hfits : ∀ f ∈ latchTwice, f.Fits := by
    refine List.forall_mem_cons.2 ⟨?_, List.forall_mem_cons.2 ⟨?_, List.forall_mem_singleton.2 ?_⟩⟩
    all_goals constructor <;> decide
  have hdigest : checksum.CollisionFree latchTwice := by decide +kernel
  obtain ⟨hmerged, -, -, herrors⟩ := build_merges {} hfits hdigest []
  exact ⟨by decide, hfits, hdigest, hmerged, herrors⟩

end Report

end HdlLint
