import Mathlib.Data.List.Induction
import HdlLint.Check
import HdlLint.Proofs.SignalSet

/-!
# Conflicts by register

The conflicts of an instance are gathered in one pass over its processes. `View.registerDualDriven_eq`:
what comes of them is what comes of looking up each register for itself, in the order of the registers:
the combinational processes that assign it (`View.combinationalWriters`), and of their first assignments
to it the earliest.

The pass goes through the assignments one by one (`View.conflictsAmong_eq`). What has been entered after
some of them is told by those to each signal (`View.foldl_enter`), and one more assignment changes what is
known of its own signal only (`View.addWriter_tabulate`).
-/

namespace HdlLint
open Design
open HdlLint.Flow (SignalSet SignalMap Summary)

namespace View

theorem ascending_registers (v : View) : v.registers.Ascending := by
  have hfold : ∀ (ps : List (Process × Summary)) (rs : SignalSet), rs.Ascending →
      (ps.foldl (fun rs q => SignalSet.union rs q.2.guarded.keys) rs).Ascending := by
    intro ps
    induction ps with
    | nil => exact fun rs hrs => hrs
    | cons q ps ih => exact fun rs hrs => ih _ (hrs.union _)
  exact hfold v.processes [] .nil

/-- A finding of the rule is about a conflict. -/
theorem exists_conflict_of_mem {v : View} {f : Finding} (h : f ∈ v.registerDualDriven) :
    ∃ id c, v.dualDriver id c = f := by
  rw [registerDualDriven] at h
  dsimp only at h
  split_ifs at h
  · exact absurd h List.not_mem_nil
  · obtain ⟨⟨id, c⟩, -, rfl⟩ := List.mem_map.1 h
    exact ⟨id, c, rfl⟩

/-! ### One register -/

/-- What is known of a signal once some processes have been found to assign it. -/
def conflictOf? : List (Process × Span) → Option Conflict
  | [] => none
  | w :: ws => some ⟨ws.foldl (fun s w => s.earlier w.2) w.2, (w :: ws).map (·.1.name)⟩

/-- What is known of a signal once one more process has been found to assign it. -/
def Conflict.join (c? : Option Conflict) (span : Span) (name : String) : Conflict :=
  match c? with
  | none => ⟨span, [name]⟩
  | some c => ⟨c.span.earlier span, c.writers ++ [name]⟩

theorem conflictOf?_concat (ws : List (Process × Span)) (p : Process) (span : Span) :
    conflictOf? (ws ++ [(p, span)]) = some (Conflict.join (conflictOf? ws) span p.name) := by
  cases ws with
  | nil => rfl
  | cons w ws => simp [conflictOf?, Conflict.join]

/-- The combinational processes that assign a signal, with its first assignment in each. -/
def combinationalWriters (v : View) (id : SignalId) : List (Process × Span) :=
  v.processes.filterMap fun (p, s) =>
    if s.isClocked then none else (s.writes.lookup id).map (p, ·)

def dualDriver? (v : View) (id : SignalId) : Option Finding :=
  (conflictOf? (v.combinationalWriters id)).map (v.dualDriver id)

/-! ### One assignment after the other -/

/-- A process assigns a signal, first at the span. -/
structure FirstWrite where
  writer : Process
  id : SignalId
  span : Span

/-- The first assignments in combinational processes. -/
def firstWrites (ps : List (Process × Summary)) : List FirstWrite :=
  ps.flatMap fun (p, s) => if s.isClocked then [] else s.writes.map fun (id, span) => ⟨p, id, span⟩

def enter (m : SignalMap Conflict) (w : FirstWrite) : SignalMap Conflict :=
  addWriter m w.id w.span w.writer.name

/-- The pass over the processes is one over the assignments in them. -/
theorem conflictsAmong_eq (rs : SignalSet) (ps : List (Process × Summary)) :
    conflictsAmong rs ps = ((firstWrites ps).filter fun w => rs.contains w.id).foldl enter [] := by
  rw [conflictsAmong, List.foldl_filter, firstWrites, List.foldl_flatMap]
  refine congrArg (List.foldl · [] ps) (funext fun m => funext fun (p, s) => ?_)
  change addWriters rs m p s = List.foldl _ m (if s.isClocked then [] else _)
  rw [addWriters]
  split_ifs
  · rfl
  · rw [List.foldl_map]
    rfl

/-- The assignments to the signal. -/
def writesTo (ws : List FirstWrite) (id : SignalId) : List (Process × Span) :=
  (ws.filter (·.id == id)).map fun w => (w.writer, w.span)

theorem writesTo_concat (ws : List FirstWrite) (w : FirstWrite) (id : SignalId) :
    writesTo (ws ++ [w]) id = writesTo ws id ++ if w.id = id then [(w.writer, w.span)] else [] := by
  by_cases h : w.id = id <;> simp [writesTo, h]

/-- An entry for each signal of which something is known. -/
def tabulate (rs : SignalSet) (known : SignalId → Option Conflict) : SignalMap Conflict :=
  rs.filterMap fun id => (known id).map (id, ·)

theorem mem_of_mem_tabulate {rs : SignalSet} {known : SignalId → Option Conflict} {e : SignalId × Conflict}
    (h : e ∈ tabulate rs known) : e.1 ∈ rs := by
  obtain ⟨id, hid, h⟩ := List.mem_filterMap.1 h
  obtain ⟨c, -, rfl⟩ := Option.map_eq_some_iff.1 h
  exact hid

theorem tabulate_cons (x : SignalId) (rs : SignalSet) (known : SignalId → Option Conflict) :
    tabulate (x :: rs) known = ((known x).map (x, ·)).toList ++ tabulate rs known := by
  rw [tabulate, List.filterMap_cons]
  cases known x <;> rfl

theorem tabulate_congr {rs : SignalSet} {known known' : SignalId → Option Conflict}
    (h : ∀ id ∈ rs, known id = known' id) : tabulate rs known = tabulate rs known' :=
  List.filterMap_congr fun id hid => by rw [h id hid]

/-- What is entered for a signal before all others stands first. -/
theorem addWriter_of_lt {m : SignalMap Conflict} {id : SignalId} (h : ∀ e ∈ m, id < e.1) (span : Span)
    (name : String) : addWriter m id span name = (id, ⟨span, [name]⟩) :: m := by
  cases m with
  | nil => rfl
  | cons e m => rw [addWriter, if_pos (h e List.mem_cons_self)]

/-- One more assignment changes what is known of its own signal. -/
theorem addWriter_tabulate {rs : SignalSet} (hrs : rs.Ascending) (known : SignalId → Option Conflict)
    {id : SignalId} (hid : id ∈ rs) (span : Span) (name : String) :
    addWriter (tabulate rs known) id span name =
      tabulate rs fun k => if id = k then some (Conflict.join (known k) span name) else known k := by
  induction rs with
  | nil => cases hid
  | cons x rs ih =>
    obtain ⟨hx, hrs⟩ := List.pairwise_cons.1 hrs
    rw [tabulate_cons, tabulate_cons]
    by_cases hhead : id = x
    · subst hhead
      -- nothing changes for the others, all of which come after it
      have hothers : tabulate rs (fun k => if id = k then some (Conflict.join (known k) span name)
          else known k) = tabulate rs known :=
        tabulate_congr fun k hk => if_neg (Nat.ne_of_lt (hx k hk))
      rw [hothers, if_pos rfl]
      cases known id with
      | none => exact addWriter_of_lt (fun e he => hx e.1 (mem_of_mem_tabulate he)) span name
      | some c =>
        change addWriter ((id, c) :: tabulate rs known) id span name = _
        rw [addWriter, if_neg (Nat.lt_irrefl id), if_pos rfl]
        rfl
    · have hmem : id ∈ rs := (List.mem_cons.1 hid).resolve_left hhead
      rw [if_neg hhead, ← ih hrs hmem]
      cases known x with
      | none => rfl
      | some c =>
        change addWriter ((x, c) :: tabulate rs known) id span name = _
        rw [addWriter, if_neg (Nat.lt_asymm (hx id hmem)), if_neg hhead]
        rfl

/-- What has been entered is told by the assignments to each signal. -/
theorem foldl_enter {rs : SignalSet} (hrs : rs.Ascending) {ws : List FirstWrite}
    (hws : ∀ w ∈ ws, w.id ∈ rs) :
    ws.foldl enter [] = tabulate rs fun id => conflictOf? (writesTo ws id) := by
  induction ws using List.reverseRecOn with
  | nil => exact (List.filterMap_eq_nil_iff.2 fun _ _ => rfl).symm
  | append_singleton ws w ih =>
    have hw : w.id ∈ rs := hws w (by simp)
    rw [List.foldl_append, ih fun w' hw' => hws w' (List.mem_append_left _ hw')]
    change addWriter _ _ _ _ = _
    rw [addWriter_tabulate hrs _ hw]
    refine tabulate_congr fun id _ => ?_
    rw [writesTo_concat]
    split_ifs
    · rw [conflictOf?_concat]
    · rw [List.append_nil]

/-! ### The rule -/

/-- A signal has at most one entry, which is the one that is looked up. -/
theorem filter_eq_lookup {α : Type} {m : SignalMap α} (h : m.keys.Ascending) (id : SignalId) :
    m.filter (·.1 == id) = (m.lookup id).toList.map (id, ·) := by
  induction m with
  | nil => rfl
  | cons e m ih =>
    obtain ⟨he, hm⟩ := List.pairwise_cons.1 h
    obtain ⟨k, a⟩ := e
    by_cases hk : k = id
    · subst hk
      have hothers : m.filter (·.1 == k) = [] := List.filter_eq_nil_iff.2 fun e hmem =>
        beq_iff_eq.not.2 (Nat.ne_of_gt (he e.1 (List.mem_map_of_mem hmem)))
      rw [List.filter_cons, if_pos (beq_self_eq_true k), hothers, List.lookup_cons_self]
      rfl
    · rw [List.filter_cons, if_neg (beq_iff_eq.not.2 hk), SignalMap.lookup_cons_of_ne (Ne.symm hk), ih hm]

theorem writesTo_firstWrites {v : View} (h : ∀ q ∈ v.processes, q.2.writes.keys.Ascending)
    {id : SignalId} (hid : id ∈ v.registers) :
    writesTo ((firstWrites v.processes).filter fun w => v.registers.contains w.id) id =
      v.combinationalWriters id := by
  have hcontains : ∀ w : FirstWrite, (w.id == id && v.registers.contains w.id) = (w.id == id) := by
    intro w
    by_cases hw : w.id = id
    · simp [hw, hid]
    · simp [hw]
  rw [writesTo, List.filter_filter]
  simp only [hcontains]
  rw [firstWrites, List.filter_flatMap, List.map_flatMap, combinationalWriters,
    List.filterMap_eq_flatMap_toList]
  refine List.flatMap_congr fun (p, s) hq => ?_
  change ((if s.isClocked then [] else _ : List FirstWrite).filter _).map _ =
    (if s.isClocked then none else (s.writes.lookup id).map (p, ·)).toList
  split_ifs
  · rfl
  · rw [List.filter_map, List.map_map]
    change (s.writes.filter (·.1 == id)).map _ = _
    rw [filter_eq_lookup (h (p, s) hq), List.map_map]
    cases s.writes.lookup id <;> rfl

theorem registerDualDriven_eq {v : View} (h : ∀ q ∈ v.processes, q.2.writes.keys.Ascending) :
    v.registerDualDriven = v.registers.filterMap v.dualDriver? := by
  have hconflicts : conflictsAmong v.registers v.processes =
      tabulate v.registers fun id => conflictOf? (v.combinationalWriters id) := by
    rw [conflictsAmong_eq, foldl_enter v.ascending_registers fun w hw => ?_]
    · exact tabulate_congr fun id hid => by rw [writesTo_firstWrites h hid]
    · exact List.contains_iff_mem.1 (List.mem_filter.1 hw).2
  rw [registerDualDriven]
  dsimp only
  split_ifs with hempty
  · rw [List.isEmpty_iff.1 hempty]
    rfl
  · rw [hconflicts, tabulate, List.map_filterMap]
    refine List.filterMap_congr fun id _ => ?_
    rw [Option.map_map]
    rfl

end View

end HdlLint
