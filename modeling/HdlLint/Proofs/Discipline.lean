import Mathlib.Data.List.Basic
import HdlLint.Proofs.Conflicts
import HdlLint.Proofs.Coverage

/-!
# What the rules ask for

`Instance.Disciplined` says of the processes of an instance what the rules for errors ask for: a
combinational process is started by all that it reads, leaves no signal unassigned on some of its
executions only, and assigns no register. Each of these rules finds nothing exactly if its part
holds, so that all of them find nothing exactly in a disciplined instance
(`View.findings_eq_nil_iff`). How many runs are listed is of no account.
-/

namespace HdlLint
open Design
open HdlLint.Flow (clockGuard? Execution)

/-! ### Discipline -/

namespace Design.Process

/-- Every signal that the body reads starts the process. -/
def Sensitive (p : Process) : Prop :=
  p.sensitivity = .all ∨
    ∃ signals, p.sensitivity = .list signals ∧ ∀ id, Reads p.body id → ∃ span, (id, span) ∈ signals

/-- A signal that is assigned on some execution of the body is assigned on all of them. -/
def LatchFree (p : Process) : Prop :=
  ∀ id, (∃ t, Execution p.body t ∧ id ∈ t) → ∀ t, Execution p.body t → id ∈ t

/-- The statements under the clock edge of a clocked process. -/
def Guarded (p : Process) (block : List Stmt) : Prop :=
  ∃ guard branches otherwise span branch, clockGuard? p = some guard ∧
    p.body = [.ifs branches otherwise span] ∧ branches[guard.branch]? = some branch ∧
    block = branch.body

end Design.Process

/-- What the rules for errors ask of an instance. A process without a clock guard is
combinational. -/
structure Design.Instance.Disciplined (i : Instance) : Prop where
  sensitive : ∀ p ∈ i.processes, clockGuard? p = none → p.Sensitive
  latchFree : ∀ p ∈ i.processes, clockGuard? p = none → p.LatchFree
  /-- A combinational process assigns no signal that is assigned under a clock edge. -/
  undriven : ∀ p ∈ i.processes, clockGuard? p = none → ∀ q ∈ i.processes, ∀ block,
    q.Guarded block → ∀ id, Assigns p.body id → ¬ Assigns block id

namespace View
variable {top : String} {cap : Nat} {i : Instance}

theorem mem_processes {p : Process} {s : Flow.Summary} :
    (p, s) ∈ (ofInstance top cap i).processes ↔ p ∈ i.processes ∧ s = Flow.summarize cap p := by
  simp only [ofInstance, List.mem_map, Prod.mk.injEq, Array.mem_toList_iff]
  constructor
  · rintro ⟨q, hq, rfl, rfl⟩; exact ⟨hq, rfl⟩
  · rintro ⟨hp, hs⟩; exact ⟨p, hp, rfl, hs.symm⟩

theorem flatMap_processes_eq_nil {f : Process × Flow.Summary → List Finding} :
    (ofInstance top cap i).processes.flatMap f = [] ↔
      ∀ p ∈ i.processes, f (p, Flow.summarize cap p) = [] := by
  rw [List.flatMap_eq_nil_iff]
  constructor
  · intro h p hp
    exact h _ (mem_processes.2 ⟨hp, rfl⟩)
  · rintro h ⟨p, s⟩ hps
    obtain ⟨hp, rfl⟩ := mem_processes.1 hps
    exact h p hp

/-! ### Reading -/

theorem covers_list {signals : List (SignalId × Span)} {id : SignalId} :
    (Sensitivity.list signals).covers id = true ↔ ∃ span, (id, span) ∈ signals := by
  simp [Sensitivity.covers]

theorem sensitivityOf_eq_nil (v : View) (p : Process) :
    v.sensitivityOf p (Flow.summarize cap p) = [] ↔ (clockGuard? p = none → p.Sensitive) := by
  cases hc : clockGuard? p with
  | some g => simp [sensitivityOf, Flow.Summary.isClocked, Flow.summarize, hc]
  | none =>
    cases hs : p.sensitivity with
    | all => simp [sensitivityOf, hs, Process.Sensitive]
    | list signals =>
      have hreads : v.sensitivityOf p (Flow.summarize cap p) = [] ↔
          ∀ id ∈ (Flow.reads p.body).keys, p.sensitivity.covers id = true := by
        simp [sensitivityOf, Flow.Summary.isClocked, Flow.summarize, hc, hs, Flow.SignalMap.keys]
      simp only [hreads, Flow.mem_keys_reads, Process.Sensitive, hs, covers_list, forall_const,
        reduceCtorEq, false_or, Sensitivity.list.injEq, exists_eq_left']

theorem sensitivityIncomplete_eq_nil : (ofInstance top cap i).sensitivityIncomplete = [] ↔
    ∀ p ∈ i.processes, clockGuard? p = none → p.Sensitive := by
  rw [sensitivityIncomplete, flatMap_processes_eq_nil]
  exact forall₂_congr fun p _ => sensitivityOf_eq_nil _ p

/-! ### Latches -/

theorem latchesOf_eq_nil (v : View) (p : Process) :
    v.latchesOf p (Flow.summarize cap p) = [] ↔ (clockGuard? p = none → p.LatchFree) := by
  cases hc : clockGuard? p with
  | some g => simp [latchesOf, Flow.Summary.isClocked, Flow.summarize, hc]
  | none =>
    have hnil : v.latchesOf p (Flow.summarize cap p) = [] ↔ Flow.sometimesWritten p.body = [] := by
      simp [latchesOf, Flow.Summary.isClocked, Flow.summarize, hc]
    rw [hnil, List.eq_nil_iff_forall_not_mem]
    simp only [Flow.mem_sometimesWritten, not_and, not_not, forall_const, Process.LatchFree,
      Flow.assigns_iff_execution, Flow.mem_alwaysWritten_iff_execution]

theorem latchInferred_eq_nil : (ofInstance top cap i).latchInferred = [] ↔
    ∀ p ∈ i.processes, clockGuard? p = none → p.LatchFree := by
  rw [latchInferred, flatMap_processes_eq_nil]
  exact forall₂_congr fun p _ => latchesOf_eq_nil _ p

/-! ### Registers -/

theorem exists_mem_splitAssignments {k : Nat} {body : List Stmt} {id : SignalId} :
    (∃ span, (id, span) ∈ (Flow.splitAssignments k body).1) ↔
      ∃ branches otherwise span branch, body = [.ifs branches otherwise span] ∧
        branches[k]? = some branch ∧ Assigns branch.body id := by
  unfold Flow.splitAssignments
  split
  · next branches otherwise span =>
    cases hk : branches[k]? with
    | none => simp [hk]
    | some branch => simp [hk, Flow.exists_mem_assignments]
  · next hbody =>
    simp only [List.not_mem_nil, exists_false, false_iff]
    rintro ⟨branches, otherwise, span, _, rfl, _⟩
    exact hbody branches otherwise span rfl

theorem mem_keys_guarded {p : Process} {id : SignalId} :
    id ∈ (Flow.summarize cap p).guarded.keys ↔ ∃ block, p.Guarded block ∧ Assigns block id := by
  cases hc : clockGuard? p with
  | none => simp [Flow.summarize, Process.Guarded, hc]
  | some g =>
    simp only [Flow.summarize, hc, Flow.SignalMap.mem_keys_firsts, exists_mem_splitAssignments]
    constructor
    · rintro ⟨branches, otherwise, span, branch, hbody, hbranch, hid⟩
      exact ⟨branch.body, ⟨g, branches, otherwise, span, branch, hc, hbody, hbranch, rfl⟩, hid⟩
    · rintro ⟨_, ⟨g', branches, otherwise, span, branch, hc', hbody, hbranch, rfl⟩, hid⟩
      obtain rfl : g = g' := Option.some.inj (hc.symm.trans hc')
      exact ⟨branches, otherwise, span, branch, hbody, hbranch, hid⟩

theorem mem_registers {id : SignalId} : id ∈ (ofInstance top cap i).registers ↔
    ∃ q ∈ i.processes, ∃ block, q.Guarded block ∧ Assigns block id := by
  -- the fold adds to the set that it starts from
  have hfold : ∀ (ps : List (Process × Flow.Summary)) (rs : Flow.SignalSet),
      id ∈ ps.foldl (fun rs ps' => Flow.SignalSet.union rs ps'.2.guarded.keys) rs ↔
        id ∈ rs ∨ ∃ ps' ∈ ps, id ∈ ps'.2.guarded.keys := by
    intro ps
    induction ps with
    | nil => simp
    | cons ps' ps ih => intro rs; simp [ih, or_assoc]
  rw [registers, hfold]
  simp only [List.not_mem_nil, false_or, Prod.exists, mem_processes]
  constructor
  · rintro ⟨q, _, ⟨hq, rfl⟩, hid⟩
    exact ⟨q, hq, mem_keys_guarded.1 hid⟩
  · rintro ⟨q, hq, hid⟩
    exact ⟨q, _, ⟨hq, rfl⟩, mem_keys_guarded.2 hid⟩

theorem combinationalWriters_eq_nil {id : SignalId} :
    (ofInstance top cap i).combinationalWriters id = [] ↔
      ∀ p ∈ i.processes, clockGuard? p = none → ¬ Assigns p.body id := by
  have hwriter : ∀ p : Process, (if (Flow.summarize cap p).isClocked then none
      else ((Flow.summarize cap p).writes.lookup id).map (p, ·)) = none ↔
        (clockGuard? p = none → ¬ Assigns p.body id) := by
    intro p
    rw [← Flow.mem_keys_writes, ← Flow.SignalMap.isSome_lookup]
    change (if (clockGuard? p).isSome then none else ((Flow.writes p.body).lookup id).map (p, ·)) =
      none ↔ _
    cases clockGuard? p <;> cases (Flow.writes p.body).lookup id <;> simp
  rw [combinationalWriters, List.filterMap_eq_nil_iff]
  constructor
  · intro h p hp
    exact (hwriter p).1 (h (p, _) (mem_processes.2 ⟨hp, rfl⟩))
  · rintro h ⟨p, s⟩ hps
    obtain ⟨hp, rfl⟩ := mem_processes.1 hps
    exact (hwriter p).2 (h p hp)

theorem dualDriver?_eq_none {v : View} {id : SignalId} :
    v.dualDriver? id = none ↔ v.combinationalWriters id = [] := by
  rw [dualDriver?, Option.map_eq_none_iff]
  cases v.combinationalWriters id <;> simp [conflictOf?]

/-- A register is looked up for itself. -/
theorem registerDualDriven_ofInstance : (ofInstance top cap i).registerDualDriven =
    (ofInstance top cap i).registers.filterMap (ofInstance top cap i).dualDriver? := by
  refine registerDualDriven_eq fun (p, s) hq => ?_
  obtain ⟨-, rfl⟩ := mem_processes.1 hq
  exact Flow.ascending_keys_writes p.body

theorem registerDualDriven_eq_nil : (ofInstance top cap i).registerDualDriven = [] ↔
    ∀ p ∈ i.processes, clockGuard? p = none → ∀ q ∈ i.processes, ∀ block,
      q.Guarded block → ∀ id, Assigns p.body id → ¬ Assigns block id := by
  simp only [registerDualDriven_ofInstance, List.filterMap_eq_nil_iff, dualDriver?_eq_none,
    combinationalWriters_eq_nil, mem_registers]
  constructor
  · intro h p hp hc q hq block hg id hpid hid
    exact h id ⟨q, hq, block, hg, hid⟩ p hp hc hpid
  · rintro h id ⟨q, hq, block, hg, hid⟩ p hp hc hpid
    exact h p hp hc q hq block hg id hpid hid

/-! ### All rules -/

/-- The rules for errors find nothing exactly in a disciplined instance. -/
theorem findings_eq_nil_iff (top : String) (cap : Nat) (i : Instance) :
    (∀ r : Rule, r.defaultSeverity = .error → (ofInstance top cap i).findings r = []) ↔
      i.Disciplined := by
  constructor
  · intro h
    exact ⟨sensitivityIncomplete_eq_nil.1 (h .sensitivityIncomplete rfl),
      latchInferred_eq_nil.1 (h .latchInferred rfl),
      registerDualDriven_eq_nil.1 (h .registerDualDriven rfl)⟩
  · rintro ⟨hs, hl, hu⟩ r hr
    cases r with
    | sensitivityIncomplete => exact sensitivityIncomplete_eq_nil.2 hs
    | latchInferred => exact latchInferred_eq_nil.2 hl
    | clockedProcessImpure => cases hr
    | registerDualDriven => exact registerDualDriven_eq_nil.2 hu

end View

end HdlLint
