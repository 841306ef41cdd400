import HdlLint.Proofs.Attribution
import HdlLint.Proofs.GuardedWrites

/-!
# Registers with a second driver

A register is a signal that some process assigns under its clock edge. It is reported once if a
combinational process assigns it too (`View.registerDualDriven_attributed`), at the earliest of the first
assignments in such processes. The earliest span of a list does not depend on the order of the list, so
neither do the reported registers and their places; only the notes name the processes in order.
-/

namespace HdlLint
open Design
open HdlLint.Flow (clockGuard?)

/-! ### The earliest span -/

namespace Span
variable {a b c : Span}

theorem before_iff : a.before b = true ↔ a.file < b.file ∨
    a.file = b.file ∧ (a.start < b.start ∨ a.start = b.start ∧ a.stop < b.stop) := by
  simp [before]

theorem before_eq_false_iff : a.before b = false ↔ b.file < a.file ∨
    b.file = a.file ∧ (b.start < a.start ∨ b.start = a.start ∧ b.stop ≤ a.stop) := by
  rw [← Bool.not_eq_true, before_iff]
  omega

theorem not_before_self (a : Span) : a.before a = false := by
  rw [before_eq_false_iff]
  omega

theorem before_asymm (h : a.before b = true) : b.before a = false := by
  rw [before_iff] at h
  rw [before_eq_false_iff]
  omega

theorem not_before_trans (hab : a.before b = false) (hbc : b.before c = false) :
    a.before c = false := by
  rw [before_eq_false_iff] at hab hbc ⊢
  omega

theorem eq_of_not_before (hab : a.before b = false) (hba : b.before a = false) : a = b := by
  rw [before_eq_false_iff] at hab hba
  obtain ⟨hfile, hstart, hstop⟩ : a.file = b.file ∧ a.start = b.start ∧ a.stop = b.stop := by omega
  cases a
  cases b
  rw [mk.injEq]
  exact ⟨hfile, hstart, hstop⟩

theorem earlier_cases (a b : Span) : a.earlier b = a ∨ a.earlier b = b := by
  unfold earlier
  split_ifs
  exacts [.inr rfl, .inl rfl]

theorem not_before_earlier_left (a b : Span) : a.before (a.earlier b) = false := by
  unfold earlier
  split_ifs with h
  · exact before_asymm h
  · exact not_before_self a

theorem not_before_earlier_right (a b : Span) : b.before (a.earlier b) = false := by
  unfold earlier
  split_ifs with h
  · exact not_before_self b
  · exact Bool.eq_false_iff.2 h

/-- The span is one of those, and none of them is before it. -/
structure Earliest (P : Span → Prop) (a : Span) : Prop where
  here : P a
  least : ∀ b, P b → b.before a = false

theorem Earliest.unique {P : Span → Prop} (ha : Earliest P a) (hb : Earliest P b) : a = b :=
  eq_of_not_before (hb.least a ha.here) (ha.least b hb.here)

theorem earliest_foldl (s : Span) (ts : List Span) : Earliest (· ∈ s :: ts) (ts.foldl earlier s) := by
  induction ts generalizing s with
  | nil => exact ⟨List.mem_singleton_self s, fun b hb => List.mem_singleton.1 hb ▸ not_before_self b⟩
  | cons t ts ih =>
    -- the first two are replaced by the earlier one of them
    obtain ⟨here, least⟩ := ih (s.earlier t)
    have hhead := least _ List.mem_cons_self
    rw [List.foldl_cons]
    refine ⟨?_, fun b hb => ?_⟩
    · rcases List.mem_cons.1 here with h | h
      · rw [h]
        rcases earlier_cases s t with h | h <;> simp [h]
      · exact List.mem_cons_of_mem _ (List.mem_cons_of_mem _ h)
    · rcases List.mem_cons.1 hb with rfl | hb
      · exact not_before_trans (not_before_earlier_left b t) hhead
      rcases List.mem_cons.1 hb with rfl | hb
      · exact not_before_trans (not_before_earlier_right s b) hhead
      · exact least b (List.mem_cons_of_mem _ hb)

end Span

/-! ### Drivers -/

namespace Design.Process

/-- The process assigns the signal under its clock edge. -/
def Registers (p : Process) (id : SignalId) : Prop := ∃ block, p.Guarded block ∧ Assigns block id

/-- The process is combinational and assigns the signal. -/
def Drives (p : Process) (id : SignalId) : Prop := clockGuard? p = none ∧ Assigns p.body id

instance (p : Process) (id : SignalId) : Decidable (p.Registers id) :=
  decidable_of_iff (id ∈ (Flow.summarize 0 p).guarded.keys) View.mem_keys_guarded

instance (p : Process) (id : SignalId) : Decidable (p.Drives id) :=
  decidable_of_iff (clockGuard? p = none ∧ id ∈ (Flow.writes p.body).keys)
    (and_congr_right' Flow.mem_keys_writes)

end Design.Process

/-- A register of the instance that a combinational process assigns as well. -/
def Design.Instance.DualDriven (i : Instance) (id : SignalId) : Prop :=
  (∃ p ∈ i.processes, p.Registers id) ∧ ∃ p ∈ i.processes, p.Drives id

namespace View

/-- The finding is at the earliest of the first assignments in combinational processes. It names the
processes that assign the signal under their clock edge, then the combinational ones. -/
structure SaysDriven (v : View) (ps : List Process) (id : SignalId) (f : Finding) : Prop where
  bare : f.bare = v.ofSignal .registerDualDriven id
    ("register " ++ v.quoted id ++ " is also assigned by a combinational process") f.span
  place : Span.Earliest
    (fun span => ∃ p ∈ ps, clockGuard? p = none ∧ (id, span) ∈ Flow.writes p.body) f.span
  notes : f.notes =
    (ps.filter (·.Registers id)).map (fun p => "registered by clocked process `" ++ p.name ++ "`") ++
      (ps.filter (·.Drives id)).map (fun p => "assigned by combinational process `" ++ p.name ++ "`")

variable {top : String} {cap : Nat} {i : Instance} {id : SignalId}

theorem clockedWriters_ofInstance :
    (ofInstance top cap i).clockedWriters id = i.processes.toList.filter (·.Registers id) := by
  rw [clockedWriters, ofInstance, List.filter_map, List.map_map]
  refine (List.map_id _).trans (List.filter_congr fun p _ => ?_)
  rw [Bool.eq_iff_iff, decide_eq_true_iff]
  exact Flow.SignalMap.isSome_lookup.trans mem_keys_guarded

/-- The first assignment of the signal if the process is combinational. -/
def driver? (id : SignalId) (p : Process) : Option (Process × Span) :=
  if (clockGuard? p).isSome then none else ((Flow.writes p.body).lookup id).map (p, ·)

theorem combinationalWriters_ofInstance :
    (ofInstance top cap i).combinationalWriters id = i.processes.toList.filterMap (driver? id) :=
  List.filterMap_map ..

theorem driver?_eq_some {p q : Process} {span : Span} : driver? id p = some (q, span) ↔
    p = q ∧ clockGuard? p = none ∧ (id, span) ∈ Flow.writes p.body := by
  rw [Flow.mem_writes]
  unfold driver?
  cases clockGuard? p with
  | none => simp [and_comm]
  | some g => simp

theorem mem_combinationalWriters {p : Process} {span : Span} :
    (p, span) ∈ (ofInstance top cap i).combinationalWriters id ↔
      p ∈ i.processes.toList ∧ clockGuard? p = none ∧ (id, span) ∈ Flow.writes p.body := by
  simp only [combinationalWriters_ofInstance, List.mem_filterMap, driver?_eq_some]
  constructor
  · rintro ⟨_, hp, rfl, h⟩
    exact ⟨hp, h⟩
  · rintro ⟨hp, h⟩
    exact ⟨p, hp, rfl, h⟩

theorem map_fst_combinationalWriters :
    ((ofInstance top cap i).combinationalWriters id).map Prod.fst =
      i.processes.toList.filter (·.Drives id) := by
  rw [combinationalWriters_ofInstance, List.map_filterMap, ← List.filterMap_eq_filter]
  refine List.filterMap_congr fun p _ => ?_
  have hdrives : p.Drives id ↔ (driver? id p).isSome := by
    rw [Process.Drives, ← Flow.mem_keys_writes, ← Flow.SignalMap.isSome_lookup, driver?]
    cases clockGuard? p <;> simp
  cases hd : driver? id p with
  | none => simp [Option.guard, hdrives, hd]
  | some w =>
    obtain ⟨rfl, -⟩ := driver?_eq_some.1 hd
    simp [Option.guard, hdrives, hd]

theorem says_of_dualDriver? {f : Finding} (h : (ofInstance top cap i).dualDriver? id = some f) :
    (ofInstance top cap i).SaysDriven i.processes.toList id f := by
  rw [dualDriver?] at h
  cases hw : (ofInstance top cap i).combinationalWriters id with
  | nil =>
    rw [hw] at h
    cases h
  | cons w ws =>
    rw [hw] at h
    cases h
    refine ⟨rfl, ?_, ?_⟩
    · have hspans : ∀ span, span ∈ w.2 :: ws.map (·.2) ↔
          ∃ p ∈ i.processes.toList, clockGuard? p = none ∧ (id, span) ∈ Flow.writes p.body := by
        intro span
        rw [← List.map_cons, ← hw, List.mem_map]
        simp only [Prod.exists, mem_combinationalWriters, exists_eq_right]
      have hleast := Span.earliest_foldl w.2 (ws.map (·.2))
      simp only [List.foldl_map, hspans] at hleast
      exact hleast
    · rw [← clockedWriters_ofInstance, ← map_fst_combinationalWriters, hw, List.map_map]
      exact congrArg _ (List.map_map ..)

theorem registerDualDriven_attributed (top : String) (cap : Nat) (i : Instance) :
    Attributed (· < ·) i.DualDriven ((ofInstance top cap i).SaysDriven i.processes.toList)
      (ofInstance top cap i).registerDualDriven := by
  rw [registerDualDriven_ofInstance]
  refine .of_filterMap (ascending_registers _) (fun id => ?_) fun id f hf => says_of_dualDriver? hf
  rw [Instance.DualDriven, mem_registers]
  refine and_congr_right' ?_
  rw [← Option.ne_none_iff_isSome, ne_eq, dualDriver?_eq_none, combinationalWriters_eq_nil]
  simp [Process.Drives]

/-- A register is reported exactly if a combinational process assigns it as well. There is one finding for
each such signal, in the order of the signals, and another order of the processes shows in the notes
only. -/
theorem dualDrivers_exact (top : String) (cap : Nat) (i : Instance) :
    Attributed (· < ·) i.DualDriven ((ofInstance top cap i).SaysDriven i.processes.toList)
        (ofInstance top cap i).registerDualDriven ∧
      ∀ ps : Array Process, ps.toList.Perm i.processes.toList →
        (ofInstance top cap { i with processes := ps }).registerDualDriven.map Finding.bare =
          (ofInstance top cap i).registerDualDriven.map Finding.bare := by
  refine ⟨registerDualDriven_attributed top cap i, fun ps hperm => ?_⟩
  have hmem : ∀ p, p ∈ ps.toList ↔ p ∈ i.processes.toList := fun p => hperm.mem_iff
  refine Attributed.map_eq (fun _ _ => Nat.lt_asymm) (registerDualDriven_attributed top cap _)
    (registerDualDriven_attributed top cap i) (fun id => ?_) fun id f f' hf hf' => ?_
  · simp only [Instance.DualDriven, ← Array.mem_toList_iff, hmem]
  · have hplace := hf.place
    simp only [hmem] at hplace
    rw [hf.bare, hf'.bare, hplace.unique hf'.place]
    rfl

/-- `q <= d;` with the signals of `resetRegister`. -/
def follower : Process where
  origin := ⟨"dff", "rtl", 1, some "comb", ⟨0, 80, 120⟩⟩
  name := "comb"
  scope := default
  sensitivity := .all
  body := [.assign ⟨3, ⟨0, 90, 91⟩, none, .signal 2 ⟨0, 95, 96⟩, ⟨0, 90, 97⟩⟩]

/-- An instance with some processes and nothing else. -/
def bench (ps : Array Process) : Instance := { (default : Instance) with processes := ps }

theorem dualDrivers_exact_swapped : (bench #[resetRegister, follower]).DualDriven 3 ∧
    (ofInstance "dff" 1 (bench #[follower, resetRegister])).registerDualDriven.map Finding.bare =
      (ofInstance "dff" 1 (bench #[resetRegister, follower])).registerDualDriven.map Finding.bare := by
  refine ⟨⟨⟨resetRegister, by simp [bench], by decide⟩, follower, by simp [bench], by decide⟩, ?_⟩
  exact (dualDrivers_exact "dff" 1 (bench #[resetRegister, follower])).2
    #[follower, resetRegister] (.swap ..)

end View

end HdlLint
