import Mathlib.Data.List.Basic
import HdlLint.Analysis
import HdlLint.Proofs.Merging
import HdlLint.Proofs.Placement
import HdlLint.Proofs.Discipline

/-!
# The verdict on a design

`Clean files o`: the files are read without a fault, each top unit that `o` asks for elaborates, and
every instance of each of them is disciplined. A run over the files, with the rules left as they
are, exits with zero if the files are clean and with one if they are not
(`Workspace.exitCode_eq_zero_iff_clean`). The verdict is followed backwards through the stages of a
run: what is read, the findings of a view, the findings of a top unit, the report on all of them.
-/

namespace HdlLint
open Design

/-! ### Faults in what is read -/

theorem Collector.hasErrors_extend (c : Collector) (ds : List Diagnostic) :
    (c.extend ds).hasErrors = true ↔ c.hasErrors = true ∨ ∃ d ∈ ds, d.severity = .error := by
  induction ds generalizing c with
  | nil => simp [extend]
  | cons d ds ih =>
    have hemit : (c.emit d).hasErrors = true ↔ c.hasErrors = true ∨ d.severity = .error := by
      by_cases hd : d.severity = .error <;> simp [emit, hasErrors, Diagnostic.isError, hd]
    change ((c.emit d).extend ds).hasErrors = true ↔ _
    rw [ih, hemit, or_assoc]
    simp only [List.mem_cons, exists_eq_or_imp]

namespace Workspace

theorem hasErrors_add (w : Workspace) (name text : String) :
    (w.add name text).collector.hasErrors = true ↔ w.collector.hasErrors = true ∨
      ∃ d ∈ (Syntax.parse w.sources.files.size text).2, d.severity = .error :=
  w.collector.hasErrors_extend _

/-- The files are numbered from the number of those read before them. -/
theorem hasErrors_foldl (files : List (String × String)) (w : Workspace) :
    (files.foldl (fun w (name, text) => w.add name text) w).collector.hasErrors = true ↔
      w.collector.hasErrors = true ∨ ∃ k file, files[k]? = some file ∧
        ∃ d ∈ (Syntax.parse (w.sources.files.size + k) file.2).2, d.severity = .error := by
  induction files generalizing w with
  | nil => simp
  | cons file files ih =>
    obtain ⟨name, text⟩ := file
    rw [List.foldl_cons, ih, hasErrors_add, size_files_add, or_assoc]
    refine or_congr_right ?_
    constructor
    · rintro (h | ⟨k, file, hk, h⟩)
      · exact ⟨0, (name, text), rfl, h⟩
      · exact ⟨k + 1, file, hk, by rwa [Nat.add_right_comm] at h⟩
    · rintro ⟨k, file, hk, h⟩
      cases k with
      | zero =>
        obtain rfl : (name, text) = file := Option.some.inj hk
        exact .inl h
      | succ k => exact .inr ⟨k, file, hk, by rwa [Nat.add_right_comm]⟩

theorem hasErrors_ofFiles (files : List (String × String)) :
    (ofFiles files).collector.hasErrors = true ↔ ∃ k file, files[k]? = some file ∧
      ∃ d ∈ (Syntax.parse k file.2).2, d.severity = .error := by
  rw [ofFiles, hasErrors_foldl]
  simp [Collector.hasErrors]

end Workspace

/-! ### Errors of a top unit -/

theorem RuleLevels.mem_enabled {r : Rule} {s : Severity} :
    (r, s) ∈ ({} : RuleLevels).enabled ↔ s = r.defaultSeverity := by
  cases r <;> cases s <;> decide

/-- With the rules left as they are, a view has an error unless the rules for errors find nothing. -/
theorem View.exists_error_check (v : View) :
    (∃ f ∈ (v.check {}).flatMap (·.2), f.severity = .error) ↔
      ∃ r : Rule, r.defaultSeverity = .error ∧ v.findings r ≠ [] := by
  simp only [check, List.mem_flatMap, List.mem_map, Prod.exists, RuleLevels.mem_enabled]
  constructor
  · rintro ⟨_, ⟨_, _, ⟨r, _, rfl, heq⟩, hmem⟩, hs⟩
    obtain ⟨-, rfl⟩ := Prod.mk.inj heq
    obtain ⟨f, hf, rfl⟩ := List.mem_map.1 hmem
    exact ⟨r, hs, List.ne_nil_of_mem hf⟩
  · rintro ⟨r, hr, hne⟩
    obtain ⟨f, hf⟩ := List.exists_mem_of_ne_nil _ hne
    exact ⟨_, ⟨r, _, ⟨r, _, rfl, rfl⟩, List.mem_map_of_mem hf⟩, hr⟩

/-- What becomes of a top unit is what becomes of its elaboration. -/
theorem checkTop_eq (l : Syntax.Library) (o : Options) (top : String) :
    (∃ e, elaborate l top (o.genericsFor top) = .error e ∧ checkTop l o top = .error e) ∨
      ∃ units design, elaborate l top (o.genericsFor top) = .ok design ∧
        checkTop l o top = .ok ⟨units, design, checkHierarchy o design⟩ := by
  unfold elaborate checkTop
  cases findTop l top with
  | error e => exact .inl ⟨e, rfl, rfl⟩
  | ok found =>
    change (∃ e, found.elaborate l _ = .error e ∧ (found.elaborate l _ >>= _) = .error e) ∨
      ∃ units design, found.elaborate l _ = .ok design ∧ (found.elaborate l _ >>= _) = _
    cases found.elaborate l (o.genericsFor top) with
    | error e => exact .inl ⟨e, rfl, rfl⟩
    | ok design => exact .inr ⟨found.graph.units.length, design, rfl, rfl⟩

/-- With the rules left as they are, a design has an error unless its instances are disciplined. -/
theorem exists_error_checkHierarchy {o : Options} (ho : o.rules = {}) (h : Hierarchy) :
    (∃ f ∈ (checkHierarchy o h).flatMap (·.findings), f.severity = .error) ↔
      ¬ ∀ i ∈ h.instances, i.Disciplined := by
  have hview : ∀ i, (∃ f ∈ ((View.ofInstance h.top o.maxWritePaths i).check o.rules).flatMap (·.2),
      f.severity = .error) ↔ ¬ i.Disciplined := by
    intro i
    rw [ho, View.exists_error_check, ← View.findings_eq_nil_iff h.top o.maxWritePaths i]
    simp only [not_forall, ne_eq, exists_prop]
  simp only [not_forall, ← hview, checkHierarchy, InstanceCheck.findings, List.mem_flatMap,
    List.mem_map]
  constructor
  · rintro ⟨f, ⟨_, ⟨i, hi, rfl⟩, hf⟩, hs⟩
    exact ⟨i, hi, f, hf, hs⟩
  · rintro ⟨i, hi, f, hf, hs⟩
    exact ⟨f, ⟨_, ⟨i, hi, rfl⟩, hf⟩, hs⟩

/-! ### The verdict -/

/-- A top unit that elaborates, and whose instances are all disciplined. -/
def SoundTop (l : Syntax.Library) (o : Options) (top : String) : Prop :=
  ∃ design, elaborate l top (o.genericsFor top) = .ok design ∧ ∀ i ∈ design.instances, i.Disciplined

theorem not_soundTop_iff {o : Options} (ho : o.rules = {}) (l : Syntax.Library) (top : String) :
    ¬ SoundTop l o top ↔ (∃ f, TopRun.failure? ⟨top, checkTop l o top⟩ = some f) ∨
      ∃ f ∈ TopRun.findings ⟨top, checkTop l o top⟩, f.severity = .error := by
  rcases checkTop_eq l o top with ⟨e, he, hc⟩ | ⟨units, design, he, hc⟩
  · simp [SoundTop, TopRun.failure?, hc, he]
  · have herr := exists_error_checkHierarchy ho design
    simp only [SoundTop, TopRun.failure?, TopRun.findings, TopCheck.findings, hc, he, herr,
      reduceCtorEq, exists_false, false_or, Except.ok.injEq, exists_eq_left']

/-- The report on a library has errors unless all top units are sound. -/
theorem hasErrors_analyze {o : Options} (ho : o.rules = {}) {l : Syntax.Library}
    (hdigest : o.CollisionFree l) (sources : Sources) :
    (analyze l sources o).hasErrors = true ↔ ∃ top ∈ o.topsOf l, ¬ SoundTop l o top := by
  simp only [not_soundTop_iff ho]
  rw [analyze, reportOn, Report.hasErrors_build sources hdigest, checkTops]
  constructor
  · rintro (hfailed | ⟨f, hf, hs⟩)
    · obtain ⟨failure, hmem⟩ := List.exists_mem_of_ne_nil _ hfailed
      obtain ⟨run, hrun, hfailure⟩ := List.mem_filterMap.1 hmem
      obtain ⟨top, htop, rfl⟩ := List.mem_map.1 hrun
      exact ⟨top, htop, .inl ⟨failure, hfailure⟩⟩
    · obtain ⟨run, hrun, hf⟩ := List.mem_flatMap.1 hf
      obtain ⟨top, htop, rfl⟩ := List.mem_map.1 hrun
      exact ⟨top, htop, .inr ⟨f, hf, hs⟩⟩
  · rintro ⟨top, htop, ⟨failure, hf⟩ | ⟨f, hf, hs⟩⟩
    · exact .inl (List.ne_nil_of_mem (List.mem_filterMap.2 ⟨_, List.mem_map_of_mem htop, hf⟩))
    · exact .inr ⟨f, List.mem_flatMap.2 ⟨_, List.mem_map_of_mem htop, hf⟩, hs⟩

/-- What a run asks of files. -/
structure Clean (files : List (String × String)) (o : Options) : Prop where
  /-- The files are numbered in their order. -/
  readable : ∀ k file, files[k]? = some file → ∀ d ∈ (Syntax.parse k file.2).2, d.severity ≠ .error
  sound : ∀ top ∈ o.topsOf (Workspace.ofFiles files).library,
    SoundTop (Workspace.ofFiles files).library o top

namespace Workspace

/-- Whether the files are clean decides if the digest has no collision. -/
theorem exitCode_check (files : List (String × String)) {o : Options} (ho : o.rules = {})
    (hdigest : o.CollisionFree (ofFiles files).library) :
    let w := ofFiles files
    (w.exitCode (w.check o) = 0 ↔ Clean files o) ∧ (w.exitCode (w.check o) = 1 ↔ ¬ Clean files o) := by
  intro w
  by_cases hfault : w.collector.hasErrors = true
  · have hdirty : ¬ Clean files o := by
      intro h
      obtain ⟨k, file, hk, d, hd, hs⟩ := (hasErrors_ofFiles files).1 hfault
      exact h.readable k file hk d hd hs
    have hcode : w.exitCode (w.check o) = 1 := if_pos hfault
    simp [hcode, hdirty]
  · -- all files were read, so the report decides
    have hreport : (analyze w.library w.sources o).hasErrors = true ↔ ¬ Clean files o := by
      rw [hasErrors_analyze ho hdigest]
      constructor
      · rintro ⟨top, htop, hbad⟩ h
        exact hbad (h.sound top htop)
      · intro hdirty
        by_contra hall
        refine hdirty ⟨fun k file hk d hd hs => hfault ?_, fun top htop => ?_⟩
        · exact (hasErrors_ofFiles files).2 ⟨k, file, hk, d, hd, hs⟩
        · by_contra hbad
          exact hall ⟨top, htop, hbad⟩
    have hcode : w.exitCode (w.check o) = (analyze w.library w.sources o).exitCode := by
      simp [exitCode, check, hfault]
    rw [hcode, Report.exitCode]
    by_cases hclean : Clean files o
    · rw [if_neg fun h => hreport.1 h hclean]
      simp [hclean]
    · rw [if_pos (hreport.2 hclean)]
      simp [hclean]

/-- A run over files, with the rules left as they are, exits with zero if the files are clean and
with one otherwise, whatever top units, number of runs and values of generics it is given, and
whether it merges its findings or not. A digest by which it merges them does not change this as long
as it has no collision. -/
theorem exitCode_eq_zero_iff_clean (files : List (String × String)) (tops : List String) (cap : Nat)
    (dedup : Bool) (generics : List (String × Overrides)) :
    let w := ofFiles files
    let o : Options := { tops, maxWritePaths := cap, dedup, generics }
    ((w.exitCode (w.check o) = 0 ↔ Clean files o) ∧ (w.exitCode (w.check o) = 1 ↔ ¬ Clean files o)) ∧
      ∀ digest, Options.CollisionFree { o with digest } w.library →
        w.exitCode (w.check { o with digest }) = w.exitCode (w.check o) := by
  intro w o
  have hplain := exitCode_check files (o := o) rfl fun _ => collisionFree_id _
  refine ⟨hplain, fun digest hdigest => ?_⟩
  have hcode := exitCode_check files rfl hdigest
  -- what is clean does not depend on the digest
  have hsame : Clean files { o with digest } ↔ Clean files o :=
    ⟨fun h => ⟨h.readable, h.sound⟩, fun h => ⟨h.readable, h.sound⟩⟩
  by_cases hclean : Clean files o
  · rw [hplain.1.2 hclean, hcode.1.2 (hsame.2 hclean)]
  · rw [hplain.2.2 hclean, hcode.2.2 (hsame.not.2 hclean)]

/-- A latch that does not even start when it should. -/
def latchFiles : List (String × String) :=
  [("latch.vhd", "entity latch is port (en : in bit; d : in bit; q : out bit); end;"),
    ("rtl.vhd", "architecture rtl of latch is begin " ++
      "process (en) begin if en = '1' then q <= d; end if; end process; end;")]

theorem exitCode_eq_zero_iff_clean_latchFiles :
    let w := ofFiles latchFiles
    ((checkTops w.library {}).flatMap (·.findings)).map (·.rule) = [.sensitivityIncomplete, .latchInferred] ∧
    Options.CollisionFree { digest := List.take 40 } w.library ∧
    w.exitCode (w.check { digest := List.take 40 }) = w.exitCode (w.check {}) := by
  intro w
  have hdigest : Options.CollisionFree { digest := List.take 40 } w.library := fun _ => by decide +kernel
  obtain ⟨-, hsame⟩ := exitCode_eq_zero_iff_clean latchFiles [] Flow.defaultMaxWritePaths true []
  exact ⟨by decide +kernel, hdigest, hsame _ hdigest⟩

end Workspace

end HdlLint
