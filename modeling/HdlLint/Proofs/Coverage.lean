import Mathlib.Data.List.Basic
import HdlLint.Flow.Summary
import HdlLint.Proofs.Enumeration

/-!
# What is written always and sometimes

The sets that the flow analysis computes from the shape of a body are the intersection and the union
of what the single runs write (`coverage_eq_runs`), so they do not depend on how many runs are
listed.

`Execution` says what a run is without listing any: it assigns, passes, or takes one of the
alternatives of a statement. All runs are all executions, so a signal is written always if every
execution assigns it (`mem_alwaysWritten_iff_execution`), and it is assigned somewhere in the text if
some execution assigns it (`assigns_iff_execution`).
-/

namespace HdlLint.Flow
open Design

/-! ### The intersection of all runs -/

theorem mem_branchesAlwaysWritten {bs : List Branch} {rest : SignalSet} {id : SignalId} :
    id ∈ branchesAlwaysWritten bs rest ↔ (∀ b ∈ bs, id ∈ alwaysWritten b.body) ∧ id ∈ rest := by
  induction bs with
  | nil => simp [branchesAlwaysWritten]
  | cons b bs ih =>
    obtain ⟨condition, text, body⟩ := b
    rw [branchesAlwaysWritten, SignalSet.mem_inter, ih, List.forall_mem_cons, and_assoc]

theorem mem_armsAlwaysWritten {as : List Arm} {rest : SignalSet} {id : SignalId} :
    id ∈ armsAlwaysWritten as rest ↔ (∀ a ∈ as, id ∈ alwaysWritten a.body) ∧ id ∈ rest := by
  induction as with
  | nil => simp [armsAlwaysWritten]
  | cons a as ih =>
    obtain ⟨choices, text, body⟩ := a
    rw [armsAlwaysWritten, SignalSet.mem_inter, ih, List.forall_mem_cons, and_assoc]

/-- A choice writes always what all its blocks write always. If it can be passed by, one of them is
the empty block. -/
theorem mem_stmtAlwaysWritten {s : Stmt} {id : SignalId} (h : s.alternatives ≠ []) :
    id ∈ stmtAlwaysWritten s ↔ ∀ b ∈ s.alternatives, id ∈ alwaysWritten b := by
  cases s with
  | assign | null => simp [Stmt.alternatives] at h
  | ifs branches otherwise span =>
    cases otherwise with
    | none => simp [stmtAlwaysWritten, Stmt.alternatives, alwaysWritten, or_imp, forall_and]
    | some body =>
      simp [stmtAlwaysWritten, mem_branchesAlwaysWritten, Stmt.alternatives, or_imp, forall_and]
  | case subject text arms others span =>
    cases others with
    | none => simp [stmtAlwaysWritten, Stmt.alternatives, alwaysWritten, or_imp, forall_and]
    | some body =>
      simp [stmtAlwaysWritten, mem_armsAlwaysWritten, Stmt.alternatives, or_imp, forall_and]

theorem mem_stmtAlwaysWritten_iff_runs {s : Stmt} {id : SignalId}
    (ih : ∀ b ∈ s.alternatives, (id ∈ alwaysWritten b ↔ ∀ p ∈ allRuns b, id ∈ p.written)) :
    id ∈ stmtAlwaysWritten s ↔ ∀ p ∈ stmtAllRuns s, id ∈ p.written := by
  by_cases h : s.alternatives = []
  · cases s with
    | assign | null => simp [stmtAlwaysWritten, stmtAllRuns]
    | ifs | case => simp [Stmt.alternatives] at h
  · rw [mem_stmtAlwaysWritten h, forall_mem_stmtAllRuns (P := fun w => id ∈ w) h]
    exact forall₂_congr ih

theorem mem_alwaysWritten {body : List Stmt} {id : SignalId} :
    id ∈ alwaysWritten body ↔ ∀ p ∈ allRuns body, id ∈ p.written := by
  induction body using block_induction with
  | nil => simp [alwaysWritten, allRuns]
  | cons s ss ihs ih =>
    rw [alwaysWritten, SignalSet.mem_union, mem_stmtAlwaysWritten_iff_runs ihs, ih]
    simp only [allRuns, List.mem_flatMap, List.mem_map]
    constructor
    · rintro h _ ⟨p, hp, q, hq, rfl⟩
      exact SignalSet.mem_union.2 (h.imp (fun h => h p hp) (fun h => h q hq))
    · -- a run that misses the signal in `s`, followed by any run, has to write it in `ss`
      intro h
      by_contra hno
      obtain ⟨⟨p, hp, hpid⟩, q, hq, hqid⟩ :
          (∃ p ∈ stmtAllRuns s, id ∉ p.written) ∧ ∃ q ∈ allRuns ss, id ∉ q.written := by
        simpa using hno
      rcases SignalSet.mem_union.1 (h _ ⟨p, hp, q, hq, rfl⟩) with h | h
      · exact hpid h
      · exact hqid h

theorem ascending_branchesAlwaysWritten {bs : List Branch} {rest : SignalSet}
    (hbs : ∀ b ∈ bs, (alwaysWritten b.body).Ascending) (hrest : rest.Ascending) :
    (branchesAlwaysWritten bs rest).Ascending := by
  cases bs with
  | nil => exact hrest
  | cons b bs =>
    obtain ⟨condition, text, body⟩ := b
    exact (hbs ⟨condition, text, body⟩ (by simp)).inter _

theorem ascending_armsAlwaysWritten {as : List Arm} {rest : SignalSet}
    (has : ∀ a ∈ as, (alwaysWritten a.body).Ascending) (hrest : rest.Ascending) :
    (armsAlwaysWritten as rest).Ascending := by
  cases as with
  | nil => exact hrest
  | cons a as =>
    obtain ⟨choices, text, body⟩ := a
    exact (has ⟨choices, text, body⟩ (by simp)).inter _

theorem ascending_stmtAlwaysWritten {s : Stmt}
    (ih : ∀ b ∈ s.alternatives, (alwaysWritten b).Ascending) : (stmtAlwaysWritten s).Ascending := by
  cases s with
  | assign a => exact .singleton a.target
  | null span => exact .nil
  | ifs branches otherwise span =>
    cases otherwise with
    | none => exact .nil
    | some body =>
      exact ascending_branchesAlwaysWritten (fun b hb => ih _ (Stmt.branch_mem_alternatives hb))
        (ih body Stmt.otherwise_mem_alternatives)
  | case subject text arms others span =>
    cases others with
    | none => exact .nil
    | some body =>
      exact ascending_armsAlwaysWritten (fun a ha => ih _ (Stmt.arm_mem_alternatives ha))
        (ih body Stmt.others_mem_alternatives)

theorem ascending_alwaysWritten (body : List Stmt) : (alwaysWritten body).Ascending := by
  induction body using block_induction with
  | nil => exact .nil
  | cons s ss ihs ih => exact (ascending_stmtAlwaysWritten ihs).union _

/-! ### The union of all runs -/

theorem assigns_iff_runs {body : List Stmt} {id : SignalId} :
    Assigns body id ↔ ∃ p ∈ allRuns body, id ∈ p.written := by
  induction body using block_induction with
  | nil => simp [allRuns, Assigns.not_nil]
  | cons s ss ihs ih =>
    have hs : ((∃ a, s = .assign a ∧ a.target = id) ∨ ∃ b ∈ s.alternatives, Assigns b id) ↔
        ∃ p ∈ stmtAllRuns s, id ∈ p.written := by
      by_cases h : s.alternatives = []
      · cases s with
        | assign | null => simp [stmtAllRuns, Stmt.alternatives, eq_comm]
        | ifs | case => simp [Stmt.alternatives] at h
      · rw [exists_mem_stmtAllRuns (P := fun w => id ∈ w) h, or_iff_right]
        · exact exists_congr fun b => and_congr_right (ihs b)
        · rintro ⟨a, rfl, -⟩
          exact h rfl
    rw [Assigns.cons_iff, ← or_assoc, hs, ih]
    simp only [allRuns, List.mem_flatMap, List.mem_map]
    constructor
    · -- neither list is empty, so a run through one part is a part of a run through both
      rintro (⟨p, hp, hid⟩ | ⟨q, hq, hid⟩)
      · obtain ⟨q, hq⟩ := List.exists_mem_of_ne_nil _ (allRuns_ne_nil ss)
        exact ⟨_, ⟨p, hp, q, hq, rfl⟩, SignalSet.mem_union.2 (.inl hid)⟩
      · obtain ⟨p, hp⟩ := List.exists_mem_of_ne_nil _
          (stmtAllRuns_ne_nil (s := s) fun b _ => allRuns_ne_nil b)
        exact ⟨_, ⟨p, hp, q, hq, rfl⟩, SignalSet.mem_union.2 (.inr hid)⟩
    · rintro ⟨_, ⟨p, hp, q, hq, rfl⟩, hid⟩
      exact (SignalSet.mem_union.1 hid).imp (fun h => ⟨p, hp, h⟩) (fun h => ⟨q, hq, h⟩)

theorem mem_sometimesWritten {body : List Stmt} {id : SignalId} :
    id ∈ sometimesWritten body ↔ Assigns body id ∧ id ∉ alwaysWritten body := by
  simp [sometimesWritten, mem_keys_writes]

/-- The signals that a body always assigns are those that all its runs assign, and the signals that
it assigns at all are those that one of its runs assigns. A summary with any limit says so of its
process: it holds the intersection of all runs, and their union without the intersection. -/
theorem coverage_eq_runs (body : List Stmt) (p : Process) (cap : Nat) :
    (∀ id, id ∈ alwaysWritten body ↔ ∀ r ∈ allRuns body, id ∈ r.written) ∧
      (∀ id, id ∈ (writes body).keys ↔ ∃ r ∈ allRuns body, id ∈ r.written) ∧
      (∀ id, id ∈ (summarize cap { p with body }).always ↔ ∀ r ∈ allRuns body, id ∈ r.written) ∧
      (∀ id, id ∈ (summarize cap { p with body }).sometimes ↔
        (∃ r ∈ allRuns body, id ∈ r.written) ∧ ¬ ∀ r ∈ allRuns body, id ∈ r.written) ∧
      (alwaysWritten body).Ascending ∧ (writes body).keys.Ascending := by
  have halways : ∀ id, id ∈ alwaysWritten body ↔ ∀ r ∈ allRuns body, id ∈ r.written :=
    fun id => mem_alwaysWritten
  refine ⟨halways, fun id => ?_, halways, fun id => ?_, ascending_alwaysWritten body,
    SignalMap.ascending_keys_firsts _⟩
  · rw [mem_keys_writes, assigns_iff_runs]
  · rw [← halways, ← assigns_iff_runs]
    exact mem_sometimesWritten

/-! ### Executions -/

/-- An execution of a block assigns the signals of a list, in its order. -/
inductive Execution : List Stmt → List SignalId → Prop
  | done : Execution [] []
  | assign {a : Assignment} {ss : List Stmt} {t : List SignalId} :
    Execution ss t → Execution (.assign a :: ss) (a.target :: t)
  | null {span : Span} {ss : List Stmt} {t : List SignalId} :
    Execution ss t → Execution (.null span :: ss) t
  | choose {s : Stmt} {b ss : List Stmt} {t u : List SignalId} :
    b ∈ s.alternatives → Execution b t → Execution ss u → Execution (s :: ss) (t ++ u)

/-- Every execution is listed among all runs. -/
theorem Execution.exists_run {body : List Stmt} {t : List SignalId} (h : Execution body t) :
    ∃ p ∈ allRuns body, ∀ id, id ∈ p.written ↔ id ∈ t := by
  -- a run through the first statement and a run through the others make a run through the block
  have hcons : ∀ {s : Stmt} {ss : List Stmt} {t u : List SignalId},
      (∃ p ∈ stmtAllRuns s, ∀ id, id ∈ p.written ↔ id ∈ t) →
      (∃ q ∈ allRuns ss, ∀ id, id ∈ q.written ↔ id ∈ u) →
      ∃ p ∈ allRuns (s :: ss), ∀ id, id ∈ p.written ↔ id ∈ t ++ u := by
    rintro s ss t u ⟨p, hp, hpt⟩ ⟨q, hq, hqu⟩
    refine ⟨p.andThen q, List.mem_flatMap.2 ⟨p, hp, List.mem_map_of_mem hq⟩, fun id => ?_⟩
    rw [WritePath.andThen, SignalSet.mem_union, hpt, hqu, List.mem_append]
  induction h with
  | done => exact ⟨{}, List.mem_singleton_self _, fun _ => Iff.rfl⟩
  | @assign a ss t _ ih =>
    exact hcons (t := [a.target]) ⟨_, List.mem_singleton_self _, fun _ => Iff.rfl⟩ ih
  | null _ ih => exact hcons (t := []) ⟨_, List.mem_singleton_self _, fun _ => Iff.rfl⟩ ih
  | @choose s b ss t u hb _ _ ihb ih =>
    have hne : s.alternatives ≠ [] := List.ne_nil_of_mem hb
    exact hcons ((exists_mem_stmtAllRuns (P := fun w => ∀ id, id ∈ w ↔ id ∈ t) hne).2 ⟨b, hb, ihb⟩) ih

/-- Every run that is listed is an execution. -/
theorem exists_execution {body : List Stmt} {p : WritePath} (h : p ∈ allRuns body) :
    ∃ t, Execution body t ∧ ∀ id, id ∈ p.written ↔ id ∈ t := by
  induction body using block_induction generalizing p with
  | nil =>
    obtain rfl := List.mem_singleton.1 h
    exact ⟨[], .done, fun _ => Iff.rfl⟩
  | cons s ss ihs ih =>
    obtain ⟨p, hp, h⟩ := List.mem_flatMap.1 h
    obtain ⟨q, hq, rfl⟩ := List.mem_map.1 h
    obtain ⟨u, hu, hqu⟩ := ih hq
    have hmem : ∀ {t}, (∀ id, id ∈ p.written ↔ id ∈ t) →
        ∀ id, id ∈ (p.andThen q).written ↔ id ∈ t ++ u := by
      intro t hpt id
      rw [WritePath.andThen, SignalSet.mem_union, hpt, hqu, List.mem_append]
    by_cases hs : s.alternatives = []
    · cases s with
      | assign a =>
        obtain rfl := List.mem_singleton.1 hp
        exact ⟨_, .assign hu, hmem fun _ => Iff.rfl⟩
      | null span =>
        obtain rfl := List.mem_singleton.1 hp
        exact ⟨_, .null hu, hmem (t := []) fun _ => Iff.rfl⟩
      | ifs | case => simp [Stmt.alternatives] at hs
    · obtain ⟨b, hb, r, hr, heq⟩ := (exists_mem_stmtAllRuns (P := (p.written = ·)) hs).1 ⟨p, hp, rfl⟩
      obtain ⟨t, ht, hrt⟩ := ihs b hb hr
      exact ⟨t ++ u, .choose hb ht hu, hmem fun id => by rw [heq]; exact hrt id⟩

theorem mem_alwaysWritten_iff_execution {body : List Stmt} {id : SignalId} :
    id ∈ alwaysWritten body ↔ ∀ t, Execution body t → id ∈ t := by
  rw [mem_alwaysWritten]
  constructor
  · intro h t ht
    obtain ⟨p, hp, hpt⟩ := ht.exists_run
    exact (hpt id).1 (h p hp)
  · intro h p hp
    obtain ⟨t, ht, hpt⟩ := exists_execution hp
    exact (hpt id).2 (h t ht)

theorem assigns_iff_execution {body : List Stmt} {id : SignalId} :
    Assigns body id ↔ ∃ t, Execution body t ∧ id ∈ t := by
  rw [assigns_iff_runs]
  constructor
  · rintro ⟨p, hp, hid⟩
    obtain ⟨t, ht, hpt⟩ := exists_execution hp
    exact ⟨t, ht, (hpt id).1 hid⟩
  · rintro ⟨t, ht, hid⟩
    obtain ⟨p, hp, hpt⟩ := ht.exists_run
    exact ⟨p, hp, (hpt id).2 hid⟩

end HdlLint.Flow
