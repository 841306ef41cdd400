import Mathlib.Data.List.Perm.Basic
import HdlLint.Proofs.Grouping
import HdlLint.Proofs.StableOrder
import HdlLint.Proofs.Twins
import HdlLint.Proofs.Verdict

/-!
# Reports put together from the reports on single top units

`analyze_composes`: the report on several top units, whose names differ by more than the case of their
letters, is what the reports on each of them alone say one after the other, its entries by the name of
the unit in small letters and its failures by the name as it was asked for. So the order in which the
units are asked for does not matter, and one that fails takes nothing from the entries of the others.

The findings of a top unit carry its name (`top_of_mem_findings`), which is part of the key by which they
are grouped and comes first when entries are compared. So neither grouping nor order mixes the findings
of different units (`entriesOf_flatMap`, `StableOrder.mergeSort_flatMap`).
-/

namespace HdlLint
open Design (elaborate)
open Syntax (Library)

/-! ### The rule and the name in a finding -/

theorem View.labels_of_mem_findings {v : View} {r : Rule} {f : Finding} (h : f ∈ v.findings r) :
    f.rule = r ∧ f.top = v.top := by
  cases r with
  | sensitivityIncomplete =>
    obtain ⟨⟨p, s⟩, -, h⟩ := List.mem_flatMap.1 h
    change f ∈ v.sensitivityOf p s at h
    unfold sensitivityOf at h
    split_ifs at h
    · exact absurd h List.not_mem_nil
    · obtain ⟨_, -, rfl⟩ := List.mem_map.1 h
      exact ⟨rfl, rfl⟩
  | latchInferred =>
    obtain ⟨⟨p, s⟩, -, h⟩ := List.mem_flatMap.1 h
    change f ∈ v.latchesOf p s at h
    unfold latchesOf at h
    split_ifs at h
    · exact absurd h List.not_mem_nil
    · obtain ⟨_, -, rfl⟩ := List.mem_map.1 h
      exact ⟨rfl, rfl⟩
  | clockedProcessImpure =>
    obtain ⟨⟨p, s⟩, -, h⟩ := List.mem_flatMap.1 h
    change f ∈ v.impuritiesOf p s at h
    unfold impuritiesOf at h
    split at h
    · exact absurd h List.not_mem_nil
    · obtain ⟨_, -, rfl⟩ := List.mem_map.1 h
      exact ⟨rfl, rfl⟩
  | registerDualDriven =>
    obtain ⟨_, _, rfl⟩ := exists_conflict_of_mem h
    exact ⟨rfl, rfl⟩

theorem Design.top_of_elaborate {l : Library} {top : String} {overrides : Overrides} {d : Hierarchy}
    (h : elaborate l top overrides = .ok d) : d.top = Ascii.lower top := by
  obtain ⟨t, hfound, h⟩ := Result.bind_eq_ok.1 h
  obtain ⟨generics, -, h⟩ := Result.bind_eq_ok.1 h
  obtain ⟨instances, -, h⟩ := Result.bind_eq_ok.1 h
  cases h
  unfold findTop at hfound
  split at hfound
  · cases hfound
  · next e hentity =>
    obtain ⟨⟨e', a⟩, hbind, hfound⟩ := Result.bind_eq_ok.1 hfound
    obtain ⟨graph, -, hfound⟩ := Result.bind_eq_ok.1 hfound
    obtain ⟨⟨⟩, -, hfound⟩ := Result.bind_eq_ok.1 hfound
    cases hfound
    obtain ⟨-, hname, -⟩ := Library.bindUnit_spec hbind
    exact hname.trans (Library.name_of_entity? hentity)

/-- What becomes of one top unit. -/
def runOf (l : Library) (o : Options) (top : String) : TopRun := ⟨top, checkTop l o top⟩

theorem top_of_mem_findings {l : Library} {o : Options} {top : String} {f : Finding}
    (h : f ∈ (runOf l o top).findings) : f.top = Ascii.lower top := by
  rcases checkTop_eq l o top with ⟨e, -, hrun⟩ | ⟨units, d, hd, hrun⟩
  · rw [runOf, hrun] at h
    exact absurd h List.not_mem_nil
  · rw [runOf, hrun] at h
    obtain ⟨c, hc, hf⟩ := List.mem_flatMap.1 h
    obtain ⟨i, -, rfl⟩ := List.mem_map.1 hc
    obtain ⟨⟨r, fs⟩, hr, hf⟩ := List.mem_flatMap.1 hf
    obtain ⟨⟨r', severity⟩, -, heq⟩ := List.mem_map.1 hr
    obtain ⟨rfl, rfl⟩ := Prod.mk.inj heq
    obtain ⟨g, hg, rfl⟩ := List.mem_map.1 hf
    exact (View.labels_of_mem_findings hg).2.trans (Design.top_of_elaborate hd)

/-! ### Grouping unit by unit -/

theorem addRepeat_append {key : RepeatKey} {f : Finding} {rs : List Repeats}
    (h : ∀ r ∈ rs, r.key ≠ key) (rs' : List Repeats) :
    addRepeat key f (rs ++ rs') = rs ++ addRepeat key f rs' := by
  induction rs with
  | nil => rfl
  | cons r rs ih =>
    obtain ⟨hr, hrs⟩ := List.forall_mem_cons.1 h
    rw [List.cons_append, addRepeat, if_neg hr, ih hrs, List.cons_append]

section
variable {digest : Digest}

theorem foldl_addRepeat_append {fs : List Finding} {rs : List Repeats}
    (h : ∀ r ∈ rs, ∀ f ∈ fs, r.key ≠ f.repeatKey digest) (rs' : List Repeats) :
    fs.foldl (fun rs f => addRepeat (f.repeatKey digest) f rs) (rs ++ rs') =
      rs ++ fs.foldl (fun rs f => addRepeat (f.repeatKey digest) f rs) rs' := by
  induction fs generalizing rs' with
  | nil => rfl
  | cons f fs ih =>
    rw [List.foldl_cons, List.foldl_cons, addRepeat_append fun r hr => h r hr f List.mem_cons_self]
    exact ih (fun r hr g hg => h r hr g (List.mem_cons_of_mem f hg)) _

/-- Findings of different top units are grouped apart from each other. -/
theorem groupRepeats_append {fs gs : List Finding} (h : ∀ f ∈ fs, ∀ g ∈ gs, f.top ≠ g.top) :
    groupRepeats digest (fs ++ gs) = groupRepeats digest fs ++ groupRepeats digest gs := by
  have hkeys : ∀ r ∈ groupRepeats digest fs, ∀ g ∈ gs, r.key ≠ g.repeatKey digest := by
    intro r hr g hg heq
    obtain ⟨hfirst, hkey⟩ := (grouped_groupRepeats digest fs).first r hr
    exact h r.first hfirst g hg (congrArg RepeatKey.top (hkey.symm.trans heq))
  have happend := foldl_addRepeat_append hkeys []
  rw [List.append_nil] at happend
  rw [groupRepeats, List.foldl_append]
  exact happend

end

namespace Report
variable {digest : Digest} {dedup : Bool} {sources : Sources}

theorem entriesOf_append {fs gs : List Finding} (h : ∀ f ∈ fs, ∀ g ∈ gs, f.top ≠ g.top) :
    entriesOf digest dedup sources (fs ++ gs) =
      entriesOf digest dedup sources fs ++ entriesOf digest dedup sources gs := by
  unfold entriesOf
  split_ifs
  · rw [groupRepeats_append h, List.map_append]
  · rw [List.map_append]

theorem entriesOf_nil : entriesOf digest dedup sources [] = [] := by
  cases dedup <;> rfl

/-- The name in an entry is that of its findings. -/
theorem top_of_mem_entriesOf {fs : List Finding} {top : String} (h : ∀ f ∈ fs, f.top = top) {e : Entry}
    (he : e ∈ entriesOf digest dedup sources fs) : e.finding.top = top := by
  unfold entriesOf at he
  split_ifs at he
  · obtain ⟨r, hr, rfl⟩ := List.mem_map.1 he
    rw [(isRepeatOf_entry sources r).1]
    exact h r.first ((grouped_groupRepeats digest fs).first r hr).1
  · obtain ⟨f, hf, rfl⟩ := List.mem_map.1 he
    exact h f hf

/-- The entries for several top units are those for each of them. -/
theorem entriesOf_flatMap {key : String → String} {findings : String → List Finding}
    (hfindings : ∀ top, ∀ f ∈ findings top, f.top = key top) {tops : List String}
    (hdistinct : tops.Pairwise fun a b => key a ≠ key b) :
    entriesOf digest dedup sources (tops.flatMap findings) =
      tops.flatMap fun top => entriesOf digest dedup sources (findings top) := by
  induction tops with
  | nil => exact entriesOf_nil
  | cons top tops ih =>
    obtain ⟨htop, htops⟩ := List.pairwise_cons.1 hdistinct
    rw [List.flatMap_cons, List.flatMap_cons, entriesOf_append, ih htops]
    intro f hf g hg
    obtain ⟨top', htop', hg⟩ := List.mem_flatMap.1 hg
    rw [hfindings top f hf, hfindings top' g hg]
    exact htop top' htop'

end Report

/-! ### Names in order -/

/-- The names in ascending order of their keys. -/
def inOrder (key : String → String) (names : List String) : List String :=
  names.mergeSort fun a b => decide (key a ≤ key b)

section
variable {key : String → String} {names names' : List String}

theorem inOrder_perm (key : String → String) (names : List String) : (inOrder key names).Perm names :=
  List.mergeSort_perm names _

theorem pairwise_inOrder (h : names.Pairwise fun a b => key a ≠ key b) :
    (inOrder key names).Pairwise fun a b => key a < key b := by
  have hsorted : (inOrder key names).Pairwise fun a b => decide (key a ≤ key b) = true := by
    refine List.pairwise_mergeSort (fun a b c => ?_) (fun a b => ?_) names
    · simp only [decide_eq_true_eq]
      exact String.le_trans
    · simpa using String.le_total (key a) (key b)
  have hdistinct := ((inOrder_perm key names).pairwise_iff Ne.symm).2 h
  refine (hsorted.and hdistinct).imp fun {a b} hab => ?_
  exact Std.lt_of_le_of_ne (of_decide_eq_true hab.1) hab.2

/-- Names with different keys come into the same order, wherever they stood. -/
theorem inOrder_eq_of_perm (hperm : names.Perm names') (h : names.Pairwise fun a b => key a ≠ key b) :
    inOrder key names = inOrder key names' := by
  have h' := (hperm.pairwise_iff Ne.symm).1 h
  have hsame := (inOrder_perm key names).trans (hperm.trans (inOrder_perm key names').symm)
  refine hsame.eq_of_pairwise (fun a b _ _ hab hba => ?_) (pairwise_inOrder h) (pairwise_inOrder h')
  exact absurd (String.lt_trans hab hba) (String.lt_irrefl _)

end

/-! ### Reports -/

theorem Entry.compare_of_top_lt {a b : Entry} (h : a.finding.top < b.finding.top) :
    a.compare b = .lt := by
  have hlt : Ord.compare a.finding.top b.finding.top = .lt := compareOfLessAndEq_eq_lt.2 h
  rw [Entry.compare, hlt]
  rfl

theorem Entry.apart_of_top_lt {a b : Entry} (h : a.finding.top < b.finding.top) :
    (a.compare b).isLE = true ∧ (b.compare a).isLE = false := by
  have hlt := compare_of_top_lt h
  have hgt : b.compare a = .gt := Std.OrientedCmp.gt_of_lt hlt
  rw [hlt, hgt]
  exact ⟨rfl, rfl⟩

/-- The failure of a top unit as the report shows it. -/
def TopRun.shown? (sources : Sources) (r : TopRun) : Option Failure :=
  r.failure?.map fun (top, d) => ⟨top, { d with severity := .error }, sources.location d.span⟩

theorem TopRun.top_of_shown? {sources : Sources} {r : TopRun} {f : Failure}
    (h : r.shown? sources = some f) : f.top = r.name := by
  rw [shown?, failure?] at h
  split at h
  · cases h
  · cases h
    rfl

section
variable {l : Library} {sources : Sources} {o : Options}

/-- The options for a run on one top unit. -/
def Options.only (o : Options) (top : String) : Options := { o with tops := [top] }

theorem entries_analyze (l : Library) (sources : Sources) (o : Options) :
    (analyze l sources o).entries =
      (Report.entriesOf o.digest o.dedup sources
        ((o.topsOf l).flatMap fun top => (runOf l o top).findings)).mergeSort
          fun a b => (a.compare b).isLE := by
  rw [analyze, reportOn, checkTops, List.flatMap_map]
  rfl

theorem failures_analyze (l : Library) (sources : Sources) (o : Options) :
    (analyze l sources o).failures =
      ((o.topsOf l).flatMap fun top => ((runOf l o top).shown? sources).toList).mergeSort
        fun a b => decide (a.top ≤ b.top) := by
  rw [analyze, reportOn, checkTops, Report.build, List.filterMap_map, List.map_filterMap,
    List.filterMap_eq_flatMap_toList]
  rfl

theorem entries_analyze_only (top : String) : (analyze l sources (o.only top)).entries =
    (Report.entriesOf o.digest o.dedup sources (runOf l o top).findings).mergeSort
      fun a b => (a.compare b).isLE := by
  rw [entries_analyze]
  change (Report.entriesOf _ _ _ ([top].flatMap _)).mergeSort _ = _
  rw [List.flatMap_singleton]
  rfl

theorem failures_analyze_only (top : String) : (analyze l sources (o.only top)).failures =
    ((runOf l o top).shown? sources).toList.mergeSort fun a b => decide (a.top ≤ b.top) := by
  rw [failures_analyze]
  change ([top].flatMap _).mergeSort _ = _
  rw [List.flatMap_singleton]
  rfl

/-- The entries for several top units come into the order of the names in small letters. -/
theorem mergeSort_entries {tops : List String}
    (h : tops.Pairwise fun a b => Ascii.lower a ≠ Ascii.lower b) :
    (tops.flatMap fun top =>
        Report.entriesOf o.digest o.dedup sources (runOf l o top).findings).mergeSort
          (fun a b => (a.compare b).isLE) =
      (inOrder Ascii.lower tops).flatMap fun top => (analyze l sources (o.only top)).entries := by
  simp only [entries_analyze_only]
  refine StableOrder.mergeSort_flatMap (fun _ _ _ => Std.TransCmp.isLE_trans) isLE_or_isLE
    (inOrder_perm _ _) ((pairwise_inOrder h).imp fun {t u} hlt a ha b hb => ?_)
  have hfindings : ∀ {top}, ∀ f ∈ (runOf l o top).findings, f.top = Ascii.lower top :=
    fun f hf => top_of_mem_findings hf
  rw [← Report.top_of_mem_entriesOf hfindings ha, ← Report.top_of_mem_entriesOf hfindings hb] at hlt
  exact Entry.apart_of_top_lt hlt

theorem entries_composed (sources : Sources)
    (h : (o.topsOf l).Pairwise fun a b => Ascii.lower a ≠ Ascii.lower b) :
    (analyze l sources o).entries = (inOrder Ascii.lower (o.topsOf l)).flatMap fun top =>
      (analyze l sources (o.only top)).entries := by
  rw [← mergeSort_entries h, entries_analyze]
  rw [Report.entriesOf_flatMap (fun top f hf => top_of_mem_findings hf) h]

/-- The failures of a run are those of the runs on single top units, by name. -/
theorem failures_composed (sources : Sources) (h : (o.topsOf l).Pairwise fun a b => id a ≠ id b) :
    (analyze l sources o).failures = (inOrder id (o.topsOf l)).flatMap fun top =>
      (analyze l sources (o.only top)).failures := by
  simp only [failures_analyze_only]
  rw [failures_analyze]
  refine StableOrder.mergeSort_flatMap (fun a b c hab hbc => ?_) (fun a b => ?_) (inOrder_perm _ _)
    ((pairwise_inOrder h).imp fun {t u} hlt a ha b hb => ?_)
  · exact decide_eq_true (String.le_trans (of_decide_eq_true hab) (of_decide_eq_true hbc))
  · simpa using String.le_total a.top b.top
  · have ha := TopRun.top_of_shown? (Option.mem_toList.1 ha)
    have hb := TopRun.top_of_shown? (Option.mem_toList.1 hb)
    change a.top = t at ha
    change b.top = u at hb
    subst ha hb
    exact ⟨decide_eq_true (Std.le_of_lt hlt), decide_eq_false (Std.not_le.2 hlt)⟩

/-- A top unit that cannot be elaborated has no findings. -/
theorem findings_of_error {top : String} {e : Design.DesignError}
    (h : elaborate l top (o.genericsFor top) = .error e) : (runOf l o top).findings = [] := by
  rcases checkTop_eq l o top with ⟨e', -, hrun⟩ | ⟨units, d, hd, -⟩
  · rw [runOf, hrun]
    rfl
  · rw [h] at hd
    cases hd

theorem topsOf_of_perm {tops : List String} (h : tops.Perm (o.topsOf l)) :
    ({ o with tops } : Options).topsOf l = tops := by
  cases tops with
  | cons => rfl
  | nil =>
    -- then no top unit was asked for, and the library has none
    have hnil := List.nil_perm.1 h
    unfold Options.topsOf at hnil
    split_ifs at hnil with hempty
    · exact hnil
    · rw [hnil] at hempty
      exact absurd rfl hempty

end

/-- A report on several top units is put together from the reports on each of them. It does not depend
on the order in which they are asked for, and one that fails changes no entry of the others. -/
theorem analyze_composes (l : Library) (sources : Sources) (o : Options)
    (hdistinct : (o.topsOf l).Pairwise fun a b => Ascii.lower a ≠ Ascii.lower b) :
    (analyze l sources o).entries = ((inOrder Ascii.lower (o.topsOf l)).flatMap fun top =>
      (analyze l sources (o.only top)).entries) ∧
    (analyze l sources o).failures = ((inOrder id (o.topsOf l)).flatMap fun top =>
      (analyze l sources (o.only top)).failures) ∧
    (∀ tops, tops.Perm (o.topsOf l) → analyze l sources { o with tops } = analyze l sources o) ∧
    ∀ top others e, (o.topsOf l).Perm (top :: others) →
      elaborate l top (o.genericsFor top) = .error e →
        (analyze l sources o).entries = (inOrder Ascii.lower others).flatMap fun top =>
          (analyze l sources (o.only top)).entries := by
  have hnames : (o.topsOf l).Pairwise fun a b => id a ≠ id b :=
    hdistinct.imp fun hne heq => hne (congrArg Ascii.lower heq)
  have hentries := entries_composed sources hdistinct
  have hfailures := failures_composed sources hnames
  refine ⟨hentries, hfailures, fun tops hperm => ?_, fun top others e hperm he => ?_⟩
  · have htops := topsOf_of_perm hperm
    have hdistinct' := (hperm.pairwise_iff Ne.symm).2 hdistinct
    have hnames' := (hperm.pairwise_iff Ne.symm).2 hnames
    have hentries' := entries_composed (o := { o with tops }) sources (htops ▸ hdistinct')
    have hfailures' := failures_composed (o := { o with tops }) sources (htops ▸ hnames')
    rw [htops, inOrder_eq_of_perm hperm hdistinct'] at hentries'
    rw [htops, inOrder_eq_of_perm hperm hnames'] at hfailures'
    exact congrArg₂ Report.mk (hentries'.trans hentries.symm) (hfailures'.trans hfailures.symm)
  · have hdistinct' := (hperm.pairwise_iff Ne.symm).1 hdistinct
    rw [hentries, inOrder_eq_of_perm hperm hdistinct, ← mergeSort_entries hdistinct', List.flatMap_cons,
      findings_of_error he, Report.entriesOf_nil, List.nil_append]
    exact mergeSort_entries (List.pairwise_cons.1 hdistinct').2

/-- The latch of the cell is found in the cell itself and in the bank, and there is no third unit. -/
def threeTops : Options :=
  { tops := ["cell", "Missing", "Bank"], generics := [("cell", [("w", .int 4)])] }

theorem analyze_composes_latchPair :
    (threeTops.tops.map fun top => (runOf latchPair threeTops top).findings.map (·.top)) =
      [["cell"], [], ["bank", "bank"]] ∧
    (analyze latchPair {} threeTops).entries = ((inOrder Ascii.lower ["cell", "Missing", "Bank"]).flatMap
      fun top => (analyze latchPair {} (threeTops.only top)).entries) ∧
    (analyze latchPair {} threeTops).failures = ((inOrder id ["cell", "Missing", "Bank"]).flatMap
      fun top => (analyze latchPair {} (threeTops.only top)).failures) ∧
    analyze latchPair {} { threeTops with tops := ["Bank", "cell", "Missing"] } =
      analyze latchPair {} threeTops ∧
    (analyze latchPair {} threeTops).entries = (inOrder Ascii.lower ["cell", "Bank"]).flatMap
      fun top => (analyze latchPair {} (threeTops.only top)).entries := by
  have hdistinct : (threeTops.topsOf latchPair).Pairwise fun a b => Ascii.lower a ≠ Ascii.lower b := by
    decide +kernel
  obtain ⟨hentries, hfailures, hperm, hfails⟩ := analyze_composes latchPair {} threeTops hdistinct
  have hmissing : elaborate latchPair "Missing" (threeTops.genericsFor "Missing") =
      .error (.topNotFound "Missing") := rfl
  refine ⟨by decide +kernel, hentries, hfailures, hperm _ (by decide), ?_⟩
  exact hfails "Missing" ["cell", "Bank"] _ (by decide) hmissing

end HdlLint
