import HdlLint.Proofs.DualDrivers
import HdlLint.Proofs.Verdict

/-!
# Latches and the runs that show them

A latch is a signal that a combinational process assigns on some of its executions and not on others.
Which signals these are is decided by the shape of the body, while the notes of a finding come from the
list of runs, which may be cut. The two agree: as long as all runs are listed, one of them leaves the
signal out (`missed_ne_nil`). So a finding tells all that is listed (`View.latchInferred_attributed`), and
the limit on the list shows in the notes alone (`View.findings_withoutRuns`).
-/

namespace HdlLint
open Design
open HdlLint.Flow (clockGuard? Execution Enumeration WritePath allRuns writePaths)

namespace Flow

/-- Those of the first runs that do not assign a signal, in their order. -/
def missed (cap : Nat) (body : List Stmt) (id : SignalId) : List WritePath :=
  ((allRuns body).take (max cap 1)).filter fun r => id ∉ r.written

theorem pathsWithout_summarize (cap : Nat) (p : Process) (id : SignalId) :
    (summarize cap p).pathsWithout id = missed cap p.body id := by
  change (writePaths p.body cap).paths.filter _ = _
  rw [writePaths_eq, missed]
  exact List.filter_congr fun r _ => by simp [List.contains_eq_mem]

end Flow

/-- A combinational process assigns the signal on some of its executions, but not on all. -/
def Design.Process.Latches (p : Process) (id : SignalId) : Prop :=
  clockGuard? p = none ∧ (∃ t, Execution p.body t ∧ id ∈ t) ∧ ∃ t, Execution p.body t ∧ id ∉ t

theorem Design.Process.latches_iff {p : Process} (hc : clockGuard? p = none) {id : SignalId} :
    p.Latches id ↔ id ∈ Flow.sometimesWritten p.body := by
  rw [Flow.mem_sometimesWritten, Flow.assigns_iff_execution, Flow.mem_alwaysWritten_iff_execution]
  simp [Latches, hc]

/-- If no run is cut off, one of those that are listed shows the latch. -/
theorem Flow.missed_ne_nil {cap : Nat} {p : Process} {id : SignalId} (h : p.Latches id)
    (hwhole : (writePaths p.body cap).truncated = false) : missed cap p.body id ≠ [] := by
  have hlen : (allRuns p.body).length ≤ max cap 1 := by
    rw [writePaths_eq] at hwhole
    exact Nat.not_lt.1 (of_decide_eq_false hwhole)
  obtain ⟨r, hr, hid⟩ : ∃ r ∈ allRuns p.body, id ∉ r.written := by
    obtain ⟨-, hnot⟩ := mem_sometimesWritten.1 ((Process.latches_iff h.1).1 h)
    rw [mem_alwaysWritten] at hnot
    simpa using hnot
  rw [missed, List.take_of_length_le hlen]
  exact List.ne_nil_of_mem (List.mem_filter.2 ⟨hr, decide_eq_true hid⟩)

/-- The finding without the runs that a latch is shown by. -/
def Finding.withoutRuns (f : Finding) : Finding := if f.rule = .latchInferred then f.bare else f

theorem Finding.withoutRuns_severity (f : Finding) (severity : Severity) :
    withoutRuns { f with severity } = { f.withoutRuns with severity } := by
  unfold withoutRuns
  split_ifs <;> rfl

namespace View

/-- What is noted of a run that does not assign the signal. -/
def whenNote (r : WritePath) : String := "not assigned when: " ++ r.text

/-- The finding says that the signal keeps its value, and on which of the listed runs it does. -/
structure SaysLatch (v : View) (cap : Nat) (p : Process) (id : SignalId) (f : Finding) : Prop where
  bare : f.bare = v.ofProcess .latchInferred p
    ("signal " ++ v.quoted id ++ " is not assigned on every path; a latch is inferred") f.span
  place : (id, f.span) ∈ Flow.writes p.body
  /-- If all runs are listed, at least one of them is noted, and nothing else. -/
  whole : (writePaths p.body cap).truncated = false →
    Flow.missed cap p.body id ≠ [] ∧ f.notes = (Flow.missed cap p.body id).map whenNote
  cut : (writePaths p.body cap).truncated = true →
    f.notes = (Flow.missed cap p.body id).map whenNote ++
      ["only the first " ++ toString (writePaths p.body cap).paths.length ++ " paths were enumerated"]

theorem SaysLatch.withoutRuns {v : View} {cap : Nat} {p : Process} {id : SignalId} {f : Finding}
    (h : v.SaysLatch cap p id f) : f.withoutRuns = v.ofProcess .latchInferred p
      ("signal " ++ v.quoted id ++ " is not assigned on every path; a latch is inferred") f.span := by
  have hrule : f.rule = .latchInferred := congrArg Finding.rule h.bare
  rw [Finding.withoutRuns, if_pos hrule, h.bare]

theorem latchNotes_summarize (cap : Nat) (p : Process) (id : SignalId) :
    latchNotes (Flow.summarize cap p) id = (Flow.missed cap p.body id).map whenNote ++
      (if (writePaths p.body cap).truncated then ["only the first " ++
        toString (writePaths p.body cap).paths.length ++ " paths were enumerated"] else []) := by
  rw [latchNotes, Flow.pathsWithout_summarize]
  rfl

theorem latchesOf_attributed (v : View) (cap : Nat) (p : Process) :
    Attributed (· < ·) p.Latches (v.SaysLatch cap p) (v.latchesOf p (Flow.summarize cap p)) := by
  cases hc : clockGuard? p with
  | some g =>
    have hnil : v.latchesOf p (Flow.summarize cap p) = [] := by
      simp [latchesOf, Flow.Summary.isClocked, Flow.summarize, hc]
    rw [hnil]
    exact .nil fun id h => by cases hc.symm.trans h.1
  | none =>
    have hfound : v.latchesOf p (Flow.summarize cap p) = (Flow.sometimesWritten p.body).map fun id =>
        { v.ofProcess .latchInferred p
            ("signal " ++ v.quoted id ++ " is not assigned on every path; a latch is inferred")
            (((Flow.writes p.body).lookup id).getD p.origin.span) with
          notes := latchNotes (Flow.summarize cap p) id } := by
      simp [latchesOf, Flow.Summary.isClocked, Flow.summarize, hc]
    have hkeys := Flow.ascending_keys_writes p.body
    rw [hfound]
    refine .of_causes (hkeys.filter _) (fun id => (Process.latches_iff hc).symm) fun id hid => ?_
    obtain ⟨span, hspan, hmem⟩ :=
      Flow.SignalMap.exists_lookup hkeys (Flow.mem_keys_writes.2 (Flow.mem_sometimesWritten.1 hid).1)
    have hnotes := latchNotes_summarize cap p id
    refine ⟨rfl, ?_, fun hwhole => ⟨?_, ?_⟩, fun hcut => ?_⟩
    · rw [hspan]
      exact hmem
    · exact Flow.missed_ne_nil ((Process.latches_iff hc).2 hid) hwhole
    · rw [hnotes, hwhole, if_neg Bool.false_ne_true, List.append_nil]
    · rw [hnotes, hcut, if_pos rfl]

theorem latchInferred_attributed (top : String) (cap : Nat) (i : Instance) :
    Attributed Spot.Before (Spot.Holds i.processes.toList Process.Latches)
      (fun s f => s.Holds i.processes.toList ((ofInstance top cap i).SaysLatch cap · · f))
      (ofInstance top cap i).latchInferred := by
  rw [latchInferred, flatMap_processes]
  exact Attributed.flatMap fun p _ => latchesOf_attributed _ cap p

/-! ### The limit on the list of runs -/

/-- A signal has one first assignment, so what a finding says without its notes is told by the process
and the signal. -/
theorem latchInferred_limit (top : String) (cap cap' : Nat) (i : Instance) :
    (ofInstance top cap i).latchInferred.map Finding.withoutRuns =
      (ofInstance top cap' i).latchInferred.map Finding.withoutRuns := by
  refine Attributed.map_eq Spot.Before.asymm (latchInferred_attributed top cap i)
    (latchInferred_attributed top cap' i) (fun _ => Iff.rfl) ?_
  rintro s f f' ⟨p, hp, hf⟩ ⟨p', hp', hf'⟩
  obtain rfl : p = p' := Option.some.inj (hp.symm.trans hp')
  have hspan : f.span = f'.span :=
    Option.some.inj ((Flow.mem_writes.1 hf.place).symm.trans (Flow.mem_writes.1 hf'.place))
  rw [hf.withoutRuns, hf'.withoutRuns, hspan]
  simp only [ofProcess, quoted, top_ofInstance, inst_ofInstance]

theorem registerDualDriven_limit (top : String) (cap cap' : Nat) (i : Instance) :
    (ofInstance top cap i).registerDualDriven = (ofInstance top cap' i).registerDualDriven := by
  have hmap : (ofInstance top cap i).registerDualDriven.map id =
      (ofInstance top cap' i).registerDualDriven.map id := by
    refine Attributed.map_eq (fun _ _ => Nat.lt_asymm) (registerDualDriven_attributed top cap i)
      (registerDualDriven_attributed top cap' i) (fun _ => Iff.rfl) fun id f f' hf hf' => ?_
    have hbare : f.bare = f'.bare := by
      rw [hf.bare, hf'.bare, hf.place.unique hf'.place]
      simp only [ofSignal, quoted, top_ofInstance, inst_ofInstance]
    exact Finding.eq_of_bare hbare (hf.notes.trans hf'.notes.symm)
  simpa using hmap

/-- Only the list of runs depends on the limit. -/
theorem summarize_limit (cap cap' : Nat) (p : Process) : Flow.summarize cap p =
    { Flow.summarize cap' p with paths := writePaths p.body cap } :=
  rfl

section
variable (v : View) (processes : List (Process × Flow.Summary)) (p : Process) (s : Flow.Summary)
  (paths : Enumeration)

/-- Neither rule looks at the runs. -/
theorem sensitivityOf_runs :
    { v with processes }.sensitivityOf p { s with paths } = v.sensitivityOf p s :=
  rfl

theorem impuritiesOf_runs : { v with processes }.impuritiesOf p { s with paths } = v.impuritiesOf p s :=
  rfl

end

theorem findings_withoutRuns (top : String) (cap cap' : Nat) (i : Instance) (r : Rule) :
    ((ofInstance top cap i).findings r).map Finding.withoutRuns =
      ((ofInstance top cap' i).findings r).map Finding.withoutRuns := by
  cases r with
  | sensitivityIncomplete =>
    simp only [findings, sensitivityIncomplete, flatMap_processes]
    refine congrArg _ (List.flatMap_congr fun p _ => ?_)
    rw [summarize_limit cap cap']
    exact sensitivityOf_runs (ofInstance top cap' i) _ p _ _
  | latchInferred => exact latchInferred_limit top cap cap' i
  | clockedProcessImpure =>
    simp only [findings, clockedProcessImpure, flatMap_processes]
    refine congrArg _ (List.flatMap_congr fun p _ => ?_)
    rw [summarize_limit cap cap']
    exact impuritiesOf_runs (ofInstance top cap' i) _ p _ _
  | registerDualDriven => rw [findings, findings, registerDualDriven_limit top cap cap' i]

theorem check_withoutRuns (top : String) (cap cap' : Nat) (i : Instance) (levels : RuleLevels) :
    (((ofInstance top cap i).check levels).flatMap (·.2)).map Finding.withoutRuns =
      (((ofInstance top cap' i).check levels).flatMap (·.2)).map Finding.withoutRuns := by
  have hsevere : ∀ (v : View) (r : Rule) (severity : Severity),
      ((v.findings r).map ({ · with severity })).map Finding.withoutRuns =
        ((v.findings r).map Finding.withoutRuns).map ({ · with severity }) := by
    intro v r severity
    rw [List.map_map, List.map_map]
    exact List.map_congr_left fun f _ => Finding.withoutRuns_severity f severity
  simp only [check, List.flatMap_map, List.map_flatMap, hsevere, findings_withoutRuns top cap cap']

end View

theorem checkTop_withoutRuns (l : Syntax.Library) (o : Options) (cap : Nat) (top : String) :
    (TopRun.findings ⟨top, checkTop l { o with maxWritePaths := cap } top⟩).map Finding.withoutRuns =
      (TopRun.findings ⟨top, checkTop l o top⟩).map Finding.withoutRuns := by
  have hgenerics : ({ o with maxWritePaths := cap } : Options).genericsFor top = o.genericsFor top := rfl
  have hlimited := checkTop_eq l { o with maxWritePaths := cap } top
  rw [hgenerics] at hlimited
  -- both designs are the same, or there is none
  rcases checkTop_eq l o top with ⟨e, he, hc⟩ | ⟨units, design, he, hc⟩ <;>
    simp only [he, reduceCtorEq, false_and, exists_false, or_false, false_or, Except.ok.injEq,
      Except.error.injEq, exists_eq_left'] at hlimited
  · simp only [TopRun.findings, hc, hlimited]
  · obtain ⟨units', hlimited⟩ := hlimited
    simp only [TopRun.findings, hc, hlimited]
    simp only [TopCheck.findings, checkHierarchy, List.flatMap_map, List.map_flatMap,
      InstanceCheck.findings, View.check_withoutRuns design.top cap o.maxWritePaths]

/-- There is one finding for each signal that a combinational process assigns on some of its executions
and not on others. It notes which of the first runs do not assign the signal, of which there are some if
no run is cut off, and the number of runs that are listed if some are. Two analyses with other limits on
this number find the same, up to these notes. -/
theorem latches_witnessed :
    (∀ (top : String) (cap : Nat) (i : Instance),
      Attributed Spot.Before (Spot.Holds i.processes.toList Process.Latches)
          (fun s f => s.Holds i.processes.toList ((View.ofInstance top cap i).SaysLatch cap · · f))
          (View.ofInstance top cap i).latchInferred ∧
        ∀ cap' r, ((View.ofInstance top cap' i).findings r).map Finding.withoutRuns =
          ((View.ofInstance top cap i).findings r).map Finding.withoutRuns) ∧
      ∀ (l : Syntax.Library) (o : Options) (cap : Nat),
        ((checkTops l { o with maxWritePaths := cap }).flatMap (·.findings)).map Finding.withoutRuns =
          ((checkTops l o).flatMap (·.findings)).map Finding.withoutRuns := by
  refine ⟨fun top cap i => ⟨View.latchInferred_attributed top cap i, fun cap' r => ?_⟩, fun l o cap => ?_⟩
  · exact View.findings_withoutRuns top cap' cap i r
  · simp only [checkTops, List.flatMap_map, List.map_flatMap, checkTop_withoutRuns]
    rfl

end HdlLint
