import Mathlib.Data.List.Induction
import HdlLint.Proofs.Composition

/-!
# Levels only leave out and relabel

`analyze_relabels`: whatever levels the rules are given, the report is the one with the rules left as they
are, without the entries of the rules that are allowed, and with the severity that each rule is given in
place of the one it has by default. The failures are the same.

The severity of a finding is part of its stream. But it is told by the rule, which is part of the stream
too, so the findings that are merged are the same at any levels (`Finding.isRepeatOf_relabel_iff`), and all
of them are left out or none (`groupRepeats_filter`). Entries are compared without regard to their severity,
so they keep their order. A digest has no such structure: it must have no collision, neither at the given
levels nor with the rules left as they are.
-/

namespace HdlLint
open Design (elaborate Hierarchy)
open Syntax (Library)

/-! ### Levels -/

namespace RuleLevels

/-- Some text of the list names the rule. -/
def Names (entries : List String) (r : Rule) : Prop := ∃ e ∈ entries, Rule.ofText? e = some r

theorem lists_iff {entries : List String} {r : Rule} : lists entries r = true ↔ Names entries r := by
  simp [lists, Names]

/-- The first list that names a rule decides: `allow`, then `deny`, then `warn`. -/
structure Decides (l : RuleLevels) (r : Rule) (severity : Option Severity) : Prop where
  allowed : Names l.allow r → severity = none
  denied : ¬ Names l.allow r → Names l.deny r → severity = some .error
  warned : ¬ Names l.allow r → ¬ Names l.deny r → Names l.warn r → severity = some .warning
  unnamed : ¬ Names l.allow r → ¬ Names l.deny r → ¬ Names l.warn r → severity = some r.defaultSeverity

theorem severity?_decides (l : RuleLevels) (r : Rule) : l.Decides r (l.severity? r) := by
  unfold severity?
  constructor <;> intros <;> simp_all [lists_iff]

/-- The levels without the texts that name no rule. -/
def known (l : RuleLevels) : RuleLevels :=
  let names (e : String) : Bool := (Rule.ofText? e).isSome
  ⟨l.deny.filter names, l.allow.filter names, l.warn.filter names⟩

theorem lists_filter (entries : List String) (r : Rule) :
    lists (entries.filter fun e => (Rule.ofText? e).isSome) r = lists entries r := by
  rw [Bool.eq_iff_iff, lists_iff, lists_iff]
  constructor
  · rintro ⟨e, he, hr⟩
    exact ⟨e, (List.mem_filter.1 he).1, hr⟩
  · rintro ⟨e, he, hr⟩
    exact ⟨e, List.mem_filter.2 ⟨he, by rw [hr, Option.isSome_some]⟩, hr⟩

theorem severity?_known (l : RuleLevels) (r : Rule) : l.known.severity? r = l.severity? r := by
  simp only [severity?, known, lists_filter]

/-- The findings of the rule are not left out. -/
def shows (l : RuleLevels) (r : Rule) : Bool := (l.severity? r).isSome

end RuleLevels

/-! ### Relabelling -/

/-- The finding with the severity that its rule is given. -/
def Finding.relabel (levels : RuleLevels) (f : Finding) : Finding :=
  { f with severity := (levels.severity? f.rule).getD f.severity }

def Entry.relabel (levels : RuleLevels) (e : Entry) : Entry :=
  { e with finding := e.finding.relabel levels }

/-- The report without the entries of rules that are left out, relabelled. -/
def Report.relabel (levels : RuleLevels) (r : Report) : Report :=
  { r with entries := (r.entries.filter fun e => levels.shows e.finding.rule).map (Entry.relabel levels) }

/-- The findings of rules that are not left out, relabelled. -/
def relabelAll (levels : RuleLevels) (fs : List Finding) : List Finding :=
  (fs.filter fun f => levels.shows f.rule).map (Finding.relabel levels)

theorem relabelAll_flatMap {α : Type} (levels : RuleLevels) (f : α → List Finding) (xs : List α) :
    relabelAll levels (xs.flatMap f) = xs.flatMap fun x => relabelAll levels (f x) := by
  rw [relabelAll, List.filter_flatMap, List.map_flatMap]
  rfl

/-- The findings of one rule, as the levels show them. -/
theorem relabelAll_of_rule (levels : RuleLevels) {r : Rule} {fs : List Finding}
    (h : ∀ f ∈ fs, f.rule = r) : relabelAll levels fs =
      (levels.severity? r).toList.flatMap fun severity => fs.map ({ · with severity }) := by
  cases hseverity : levels.severity? r with
  | none =>
    have hnil : fs.filter (fun f => levels.shows f.rule) = [] := by
      refine List.filter_eq_nil_iff.2 fun f hf => ?_
      rw [h f hf, RuleLevels.shows, hseverity]
      exact Bool.false_ne_true
    rw [relabelAll, hnil]
    rfl
  | some s =>
    have hall : fs.filter (fun f => levels.shows f.rule) = fs := by
      refine List.filter_eq_self.2 fun f hf => ?_
      rw [h f hf, RuleLevels.shows, hseverity]
      rfl
    rw [relabelAll, hall, Option.toList_some, List.flatMap_singleton]
    refine List.map_congr_left fun f hf => ?_
    rw [Finding.relabel, h f hf, hseverity]
    rfl

theorem View.findings_check (v : View) (levels : RuleLevels) :
    (v.check levels).flatMap (·.2) = Rule.all.flatMap fun r =>
      (levels.severity? r).toList.flatMap fun severity => (v.findings r).map ({ · with severity }) := by
  rw [check, RuleLevels.enabled, List.flatMap_map, List.filterMap_eq_flatMap_toList, List.flatMap_assoc]
  refine List.flatMap_congr fun r _ => ?_
  cases levels.severity? r <;> rfl

theorem View.check_relabels (v : View) (levels : RuleLevels) :
    (v.check levels).flatMap (·.2) = relabelAll levels ((v.check {}).flatMap (·.2)) := by
  rw [findings_check, findings_check, relabelAll_flatMap]
  refine List.flatMap_congr fun r _ => ?_
  have hdefault : ({} : RuleLevels).severity? r = some r.defaultSeverity := rfl
  rw [hdefault, Option.toList_some, List.flatMap_singleton]
  have hrule : ∀ f ∈ (v.findings r).map ({ · with severity := r.defaultSeverity }), f.rule = r := by
    intro f hf
    obtain ⟨g, hg, rfl⟩ := List.mem_map.1 hf
    exact (labels_of_mem_findings hg).1
  rw [relabelAll_of_rule levels hrule]
  refine List.flatMap_congr fun severity _ => ?_
  rw [List.map_map]
  rfl

/-! ### Top units -/

theorem findings_runOf (l : Library) (o : Options) (top : String) : (runOf l o top).findings =
    (elaborate l top (o.genericsFor top)).toOption.toList.flatMap fun d =>
      (checkHierarchy o d).flatMap (·.findings) := by
  rcases checkTop_eq l o top with ⟨e, he, hrun⟩ | ⟨units, d, hd, hrun⟩
  · rw [runOf, hrun, he]
    rfl
  · rw [runOf, hrun, hd]
    exact (List.append_nil _).symm

theorem checkHierarchy_relabels (o : Options) (levels : RuleLevels) (d : Hierarchy) :
    (checkHierarchy { o with rules := levels } d).flatMap (·.findings) =
      relabelAll levels ((checkHierarchy { o with rules := {} } d).flatMap (·.findings)) := by
  rw [checkHierarchy, checkHierarchy, List.flatMap_map, List.flatMap_map, relabelAll_flatMap]
  exact List.flatMap_congr fun i _ => View.check_relabels _ levels

theorem findings_relabels (l : Library) (o : Options) (levels : RuleLevels) (top : String) :
    (runOf l { o with rules := levels } top).findings =
      relabelAll levels (runOf l { o with rules := {} } top).findings := by
  rw [findings_runOf, findings_runOf, relabelAll_flatMap]
  exact List.flatMap_congr fun d _ => checkHierarchy_relabels o levels d

theorem shown?_relabels (l : Library) (o : Options) (levels : RuleLevels) (sources : Sources)
    (top : String) : (runOf l { o with rules := levels } top).shown? sources =
      (runOf l { o with rules := {} } top).shown? sources := by
  unfold runOf checkTop
  cases Design.findTop l top with
  | error e => rfl
  | ok found =>
    change TopRun.shown? sources ⟨top, found.elaborate l (o.genericsFor top) >>= _⟩ =
      TopRun.shown? sources ⟨top, found.elaborate l (o.genericsFor top) >>= _⟩
    cases found.elaborate l (o.genericsFor top) <;> rfl

/-- With the rules left as they are, the severity of a finding is told by its rule. -/
def Finding.Plain (f : Finding) : Prop := f.severity = f.rule.defaultSeverity

theorem plain_of_mem_findings {l : Library} {o : Options} {top : String} {f : Finding}
    (h : f ∈ (runOf l { o with rules := {} } top).findings) : f.Plain := by
  rw [findings_runOf] at h
  obtain ⟨d, -, h⟩ := List.mem_flatMap.1 h
  obtain ⟨c, hc, h⟩ := List.mem_flatMap.1 h
  obtain ⟨i, -, rfl⟩ := List.mem_map.1 hc
  change f ∈ (View.check _ {}).flatMap (·.2) at h
  rw [View.findings_check] at h
  obtain ⟨r, -, h⟩ := List.mem_flatMap.1 h
  obtain ⟨s, hs, h⟩ := List.mem_flatMap.1 h
  obtain ⟨g, hg, rfl⟩ := List.mem_map.1 h
  have hseverity : r.defaultSeverity = s := Option.some.inj (Option.mem_toList.1 hs)
  rw [Finding.Plain, (View.labels_of_mem_findings hg).1, hseverity]

/-! ### Fingerprints -/

namespace Finding
variable {f g : Finding}

/-- Findings are repeats at any levels exactly if they are with the rules left as they are. -/
theorem isRepeatOf_relabel_iff (levels : RuleLevels) (hf : f.Plain) (hg : g.Plain) :
    (f.relabel levels).IsRepeatOf (g.relabel levels) ↔ f.IsRepeatOf g := by
  rw [IsRepeatOf, IsRepeatOf, stream_eq_iff_remainder, stream_eq_iff_remainder]
  refine and_congr_right fun _ => and_congr_right fun hrule => and_congr_left fun _ => ?_
  change f.rule = g.rule at hrule
  have hsame : f.severity = g.severity := by rw [hf, hg, hrule]
  refine iff_of_true ?_ hsame
  change (levels.severity? f.rule).getD f.severity = (levels.severity? g.rule).getD g.severity
  rw [hrule, hsame]

end Finding

/-! ### Groups -/

section
variable {digest : Digest}

theorem groupRepeats_concat (fs : List Finding) (f : Finding) :
    groupRepeats digest (fs ++ [f]) = addRepeat (f.repeatKey digest) f (groupRepeats digest fs) := by
  rw [groupRepeats, List.foldl_append]
  rfl

theorem addRepeat_filter {p : Finding → Bool} {key : RepeatKey} {f : Finding} {rs : List Repeats}
    (h : ∀ r ∈ rs, r.key = key → p r.first = p f) :
    (addRepeat key f rs).filter (p ·.first) =
      if p f then addRepeat key f (rs.filter (p ·.first)) else rs.filter (p ·.first) := by
  induction rs with
  | nil => simp [addRepeat, List.filter_singleton]
  | cons r rs ih =>
    obtain ⟨hr, hrs⟩ := List.forall_mem_cons.1 h
    have ih := ih hrs
    rw [addRepeat]
    split_ifs at ih ⊢ with hkey hp hp
    · simp [hr hkey, hp, addRepeat, hkey]
    · simp [hr hkey, hp]
    · rw [List.filter_cons, List.filter_cons, ih]
      split_ifs
      · rw [addRepeat, if_neg hkey]
      · rfl
    · rw [List.filter_cons, List.filter_cons, ih]

/-- If findings with one key are all kept or all left out, so are their groups. -/
theorem groupRepeats_filter {p : Finding → Bool} {fs : List Finding}
    (h : ∀ f ∈ fs, ∀ g ∈ fs, f.repeatKey digest = g.repeatKey digest → p f = p g) :
    groupRepeats digest (fs.filter p) = (groupRepeats digest fs).filter (p ·.first) := by
  induction fs using List.reverseRecOn with
  | nil => rfl
  | append_singleton fs f ih =>
    have hgrouped := grouped_groupRepeats digest fs
    have hfirst : ∀ r ∈ groupRepeats digest fs, r.key = f.repeatKey digest → p r.first = p f := by
      intro r hr hkey
      obtain ⟨hmem, hkey'⟩ := hgrouped.first r hr
      exact h r.first (List.mem_append_left _ hmem) f (by simp) (hkey'.symm.trans hkey)
    have ih := ih fun g hg g' hg' => h g (List.mem_append_left _ hg) g' (List.mem_append_left _ hg')
    rw [groupRepeats_concat, addRepeat_filter hfirst, List.filter_append, ← ih]
    split_ifs with hp
    · rw [List.filter_cons_of_pos hp, List.filter_nil, groupRepeats_concat]
    · rw [List.filter_cons_of_neg hp, List.filter_nil, List.append_nil]

/-- The group whose first finding is changed by `h`. -/
def Repeats.change (digest : Digest) (h : Finding → Finding) (r : Repeats) : Repeats :=
  ⟨(h r.first).repeatKey digest, h r.first, r.paths⟩

theorem addRepeat_map {h : Finding → Finding} {key : RepeatKey} {f : Finding} {rs : List Repeats}
    (hpath : (h f).path = f.path)
    (hrs : ∀ r ∈ rs, (h r.first).repeatKey digest = (h f).repeatKey digest ↔ r.key = key) :
    (addRepeat key f rs).map (Repeats.change digest h) =
      addRepeat ((h f).repeatKey digest) (h f) (rs.map (Repeats.change digest h)) := by
  induction rs with
  | nil => rfl
  | cons r rs ih =>
    obtain ⟨hr, hrs⟩ := List.forall_mem_cons.1 hrs
    rw [addRepeat, List.map_cons, addRepeat]
    change _ = if (h r.first).repeatKey digest = (h f).repeatKey digest then _ else _
    split_ifs with hsame hsame' hsame'
    · rw [List.map_cons, hpath]
      rfl
    · exact absurd (hr.2 hsame) hsame'
    · exact absurd (hr.1 hsame') hsame
    · rw [List.map_cons, ih hrs]

/-- A change of findings that keeps their paths, and keys apart and together, changes groups alike. -/
theorem groupRepeats_map {h : Finding → Finding} {fs : List Finding}
    (hpath : ∀ f ∈ fs, (h f).path = f.path)
    (hkeys : ∀ f ∈ fs, ∀ g ∈ fs, (h f).repeatKey digest = (h g).repeatKey digest ↔
      f.repeatKey digest = g.repeatKey digest) :
    groupRepeats digest (fs.map h) = (groupRepeats digest fs).map (Repeats.change digest h) := by
  induction fs using List.reverseRecOn with
  | nil => rfl
  | append_singleton fs f ih =>
    have hgrouped := grouped_groupRepeats digest fs
    have hrs : ∀ r ∈ groupRepeats digest fs,
        (h r.first).repeatKey digest = (h f).repeatKey digest ↔ r.key = f.repeatKey digest := by
      intro r hr
      obtain ⟨hmem, hkey⟩ := hgrouped.first r hr
      rw [hkey]
      exact hkeys r.first (List.mem_append_left _ hmem) f (by simp)
    have ih := ih (fun g hg => hpath g (List.mem_append_left _ hg))
      fun g hg g' hg' => hkeys g (List.mem_append_left _ hg) g' (List.mem_append_left _ hg')
    rw [groupRepeats_concat, addRepeat_map (hpath f (by simp)) hrs, ← ih, List.map_append,
      List.map_singleton, groupRepeats_concat]

end

/-! ### Entries -/

namespace Report
variable {digest : Digest} {dedup : Bool} {sources : Sources}

theorem rule_entry (sources : Sources) (r : Repeats) :
    (r.entry sources).finding.rule = r.first.rule := by
  rw [Repeats.entry]
  split <;> rfl

theorem entry_change_relabel (levels : RuleLevels) (r : Repeats) :
    (r.change digest (Finding.relabel levels)).entry sources = (r.entry sources).relabel levels := by
  obtain ⟨key, first, paths⟩ := r
  rw [Repeats.change, Repeats.entry, Repeats.entry]
  dsimp only [Finding.relabel]
  split <;> rfl

theorem entriesOf_filter (levels : RuleLevels) {fs : List Finding}
    (hdigest : dedup = true → digest.CollisionFree fs) :
    entriesOf digest dedup sources (fs.filter fun f => levels.shows f.rule) =
      (entriesOf digest dedup sources fs).filter fun e => levels.shows e.finding.rule := by
  unfold entriesOf
  split_ifs with hdedup
  · have hrule : ∀ f ∈ fs, ∀ g ∈ fs, f.repeatKey digest = g.repeatKey digest →
        levels.shows f.rule = levels.shows g.rule := by
      intro f hf g hg hkey
      obtain ⟨-, hstream⟩ := ((hdigest hdedup).repeatKey_eq_iff hf hg).1 hkey
      rw [(Finding.stream_eq_iff_remainder.1 hstream).1]
    rw [groupRepeats_filter hrule, List.filter_map]
    refine congrArg _ (List.filter_congr fun r _ => ?_)
    rw [Function.comp_apply, rule_entry]
  · rw [List.filter_map]
    rfl

theorem entriesOf_relabel (levels : RuleLevels) {fs : List Finding} (h : ∀ f ∈ fs, f.Plain)
    (hdigest : dedup = true → digest.CollisionFree fs)
    (hrelabelled : dedup = true → digest.CollisionFree (fs.map (Finding.relabel levels))) :
    entriesOf digest dedup sources (fs.map (Finding.relabel levels)) =
      (entriesOf digest dedup sources fs).map (Entry.relabel levels) := by
  unfold entriesOf
  split_ifs with hdedup
  · have hkeys : ∀ f ∈ fs, ∀ g ∈ fs, (f.relabel levels).repeatKey digest =
        (g.relabel levels).repeatKey digest ↔ f.repeatKey digest = g.repeatKey digest := by
      intro f hf g hg
      rw [(hdigest hdedup).repeatKey_eq_iff hf hg, (hrelabelled hdedup).repeatKey_eq_iff
        (List.mem_map_of_mem hf) (List.mem_map_of_mem hg)]
      exact Finding.isRepeatOf_relabel_iff levels (h f hf) (h g hg)
    have hpath : ∀ f ∈ fs, (f.relabel levels).path = f.path := fun _ _ => rfl
    rw [groupRepeats_map hpath hkeys, List.map_map, List.map_map]
    exact List.map_congr_left fun r _ => entry_change_relabel levels r
  · rw [List.map_map, List.map_map]
    rfl

end Report

theorem checkTops_relabels (l : Library) (o : Options) (levels : RuleLevels) :
    (checkTops l { o with rules := levels }).flatMap (·.findings) =
      relabelAll levels ((checkTops l { o with rules := {} }).flatMap (·.findings)) := by
  rw [checkTops, checkTops, List.flatMap_map, List.flatMap_map, relabelAll_flatMap]
  exact List.flatMap_congr fun top _ => findings_relabels l o levels top

theorem entries_relabels {l : Library} {o : Options} {levels : RuleLevels}
    (hplain : Options.CollisionFree { o with rules := {} } l)
    (hlevels : Options.CollisionFree { o with rules := levels } l) (sources : Sources) :
    (analyze l sources { o with rules := levels }).entries =
      ((analyze l sources { o with rules := {} }).relabel levels).entries := by
  set fs := (checkTops l { o with rules := {} }).flatMap (·.findings) with hfs
  have hentries : ∀ rules, (analyze l sources { o with rules }).entries =
      (Report.entriesOf o.digest o.dedup sources
        ((checkTops l { o with rules }).flatMap (·.findings))).mergeSort
          fun a b => (a.compare b).isLE := fun _ => rfl
  have hplain' : ∀ f ∈ fs.filter fun f => levels.shows f.rule, f.Plain := by
    intro f hf
    obtain ⟨run, hrun, hf⟩ := List.mem_flatMap.1 (List.mem_filter.1 hf).1
    obtain ⟨top, -, rfl⟩ := List.mem_map.1 hrun
    exact plain_of_mem_findings hf
  have hshown : o.dedup = true → o.digest.CollisionFree (fs.filter fun f => levels.shows f.rule) :=
    fun hdedup f hf g hg => hplain hdedup f (List.mem_filter.1 hf).1 g (List.mem_filter.1 hg).1
  have hrelabelled : o.dedup = true → o.digest.CollisionFree
      ((fs.filter fun f => levels.shows f.rule).map (Finding.relabel levels)) := by
    intro hdedup
    have h := hlevels hdedup
    rwa [checkTops_relabels] at h
  have htrans : ∀ a b c : Entry, (a.compare b).isLE = true → (b.compare c).isLE = true →
      (a.compare c).isLE = true := fun _ _ _ => Std.TransCmp.isLE_trans
  have hcompare : ∀ a b : Entry, (a.compare b).isLE = ((a.relabel levels).compare (b.relabel levels)).isLE :=
    fun _ _ => rfl
  rw [Report.relabel, hentries, hentries, checkTops_relabels, ← hfs]
  calc (Report.entriesOf o.digest o.dedup sources (relabelAll levels fs)).mergeSort
          (fun a b => (a.compare b).isLE)
      = (((Report.entriesOf o.digest o.dedup sources fs).filter fun e =>
          levels.shows e.finding.rule).map (Entry.relabel levels)).mergeSort
            (fun a b => (a.compare b).isLE) := by
        rw [relabelAll, Report.entriesOf_relabel levels hplain' hshown hrelabelled,
          Report.entriesOf_filter levels hplain]
    _ = (((Report.entriesOf o.digest o.dedup sources fs).filter fun e =>
          levels.shows e.finding.rule).mergeSort (fun a b => (a.compare b).isLE)).map
            (Entry.relabel levels) :=
        (List.map_mergeSort fun a _ b _ => hcompare a b).symm
    _ = (((Report.entriesOf o.digest o.dedup sources fs).mergeSort
          (fun a b => (a.compare b).isLE)).filter fun e => levels.shows e.finding.rule).map
            (Entry.relabel levels) := by
        rw [StableOrder.filter_mergeSort htrans isLE_or_isLE]

theorem failures_relabels (l : Library) (sources : Sources) (o : Options) (levels : RuleLevels) :
    (analyze l sources { o with rules := levels }).failures =
      (analyze l sources { o with rules := {} }).failures := by
  rw [failures_analyze, failures_analyze]
  simp only [shown?_relabels l o levels]
  rfl

/-- The levels of the rules leave out the entries of some rules and set the severity of the others, and
change nothing else. A list that names a rule decides on it before the next: `allow`, `deny`, `warn`.
Texts that name no rule do nothing. The digest of the findings must have no collision, neither at these
levels nor with the rules left as they are. -/
theorem analyze_relabels (l : Library) (sources : Sources) (o : Options) (levels : RuleLevels)
    (hplain : Options.CollisionFree { o with rules := {} } l)
    (hlevels : Options.CollisionFree { o with rules := levels } l) :
    analyze l sources { o with rules := levels } =
      (analyze l sources { o with rules := {} }).relabel levels ∧
    (∀ r, levels.Decides r (levels.severity? r)) ∧
    analyze l sources { o with rules := levels.known } = analyze l sources { o with rules := levels } := by
  have hrelabels : ∀ levels : RuleLevels, Options.CollisionFree { o with rules := levels } l →
      analyze l sources { o with rules := levels } =
        (analyze l sources { o with rules := {} }).relabel levels := fun levels hlevels =>
    congrArg₂ Report.mk (entries_relabels hplain hlevels sources) (failures_relabels l sources o levels)
  have hseverity : levels.known.severity? = levels.severity? := funext levels.severity?_known
  have hfinding : Finding.relabel levels.known = Finding.relabel levels := by
    funext f
    rw [Finding.relabel, Finding.relabel, hseverity]
  have hshows : levels.known.shows = levels.shows := by
    funext r
    rw [RuleLevels.shows, RuleLevels.shows, hseverity]
  have hentry : Entry.relabel levels.known = Entry.relabel levels := by
    funext e
    rw [Entry.relabel, Entry.relabel, hfinding]
  -- what names no rule does not change the findings, so it brings no collision
  have hknown : Options.CollisionFree { o with rules := levels.known } l := by
    intro hdedup
    have h := hlevels hdedup
    rw [checkTops_relabels] at h ⊢
    rwa [relabelAll, hshows, hfinding]
  refine ⟨hrelabels levels hlevels, levels.severity?_decides, ?_⟩
  rw [hrelabels _ hknown, hrelabels _ hlevels, Report.relabel, Report.relabel, hentry, hshows]

/-- The latches of the bank become warnings, also by a short digest. -/
theorem analyze_relabels_latchPair :
    let o : Options := { digest := Report.checksum }
    let levels : RuleLevels := { warn := ["LATCH_INFERRED", "no-rule"] }
    ((checkTops latchPair { o with rules := levels }).flatMap (·.findings)).map (·.severity) =
      [.warning, .warning] ∧
    Options.CollisionFree { o with rules := {} } latchPair ∧
    Options.CollisionFree { o with rules := levels } latchPair ∧
    analyze latchPair {} { o with rules := levels } =
      (analyze latchPair {} { o with rules := {} }).relabel levels := by
  intro o levels
  have hplain : Options.CollisionFree { o with rules := {} } latchPair := fun _ => by decide +kernel
  have hlevels : Options.CollisionFree { o with rules := levels } latchPair := fun _ => by decide +kernel
  obtain ⟨hrelabels, -, -⟩ := analyze_relabels latchPair {} o levels hplain hlevels
  exact ⟨by decide +kernel, hplain, hlevels, hrelabels⟩

end HdlLint
