import HdlLint.Check
import HdlLint.Proofs.Discipline
import HdlLint.Proofs.FirstAssignments

/-!
# Assignments inside and outside of the clock edge

The body of a clocked process is one `if`, and the first two numbers of a path are those of this `if`
and of one of its blocks. So the assignments under the clock edge are those whose path goes through the
guarded branch, and all others stand in another branch or behind `else` (`AssignsIn`). The two maps of a
summary record the first ones of either kind (`records_guarded`, `records_unguarded`), and of these two
the one that comes first is the first of all (`Summary.SplitBy`).
-/

namespace HdlLint

namespace Flow
open Design

/-! ### The guarded branch -/

theorem branch_lt_of_mem_guards {i : Nat} {bs : List Branch} {g : ClockGuard} (h : g ∈ guards i bs) :
    g.branch < i + bs.length := by
  induction bs generalizing i with
  | nil => cases h
  | cons b bs ih =>
    have hrest : g ∈ guards (i + 1) bs → g.branch < i + (bs.length + 1) := fun h => by
      have := ih h
      omega
    rw [guards] at h
    split at h
    · rcases List.mem_cons.1 h with rfl | h
      · exact Nat.lt_add_of_pos_right (Nat.succ_pos _)
      · exact hrest h
    · exact hrest h

/-- The body of a clocked process is one `if`, and its guard is a branch of it. -/
theorem body_of_clockGuard? {p : Process} {g : ClockGuard} (h : clockGuard? p = some g) :
    ∃ branches otherwise span, p.body = [.ifs branches otherwise span] ∧
      g.branch < branches.length := by
  unfold clockGuard? at h
  split at h
  · next branches otherwise span hbody =>
    split at h
    · next g' hguards =>
      have hg : g' = g := by
        split_ifs at h
        exact Option.some.inj h
      have hlt := branch_lt_of_mem_guards (hguards ▸ List.mem_singleton_self g')
      exact ⟨branches, otherwise, span, hbody, by simpa [hg] using hlt⟩
    · cases h
  · cases h

/-! ### Assignments by their branch -/

/-- An assignment to the signal stands at the end of the path, in a block of which `P` holds under the
first statement of the body. -/
def AssignsIn (P : Nat → Prop) (body : List Stmt) (id : SignalId) (path : StmtPath) (span : Span) :
    Prop :=
  assignAt? body path = some (id, span) ∧ ∃ k rest, path = 0 :: k :: rest ∧ P k

/-- What is assigned at the end of a path through one of the blocks that are kept. -/
def keptAt? (keep : Nat → Bool) (body : List Stmt) : StmtPath → Option (SignalId × Span)
  | n :: k :: path => if keep k then assignAt? body (n :: k :: path) else none
  | _ => none

theorem assignsIn_iff {P : Nat → Prop} {keep : Nat → Bool} (hkeep : ∀ k, keep k = true ↔ P k) {s : Stmt}
    {id : SignalId} {path : StmtPath} {span : Span} :
    AssignsIn P [s] id path span ↔ keptAt? keep [s] path = some (id, span) := by
  rcases path with - | ⟨n, - | ⟨k, path⟩⟩
  · simp [AssignsIn, keptAt?]
  · simp [AssignsIn, keptAt?]
  · cases n with
    | zero => simp [AssignsIn, keptAt?, hkeep, and_comm]
    | succ n => simp [AssignsIn, keptAt?, assignAt?, stmtAt?]

theorem preordered_kept (keep : Nat → Bool) (s : Stmt) :
    Preordered (keptAt? keep [s]) (rows (fun b k => if keep k then assignments b else []) s.blocks) := by
  have hnode : keptAt? keep [s] = node none
      (fun s _ => node none (fun b k => if keep k then assignAt? b else fun _ => none) s.blocks) [s] := by
    funext path
    rcases path with - | ⟨n, - | ⟨k, path⟩⟩
    · rfl
    · simp [keptAt?, node]
    · rw [keptAt?, assignAt?_eq_node]
      cases hk : keep k <;> simp [node, stmtAssignAt?, hk]
  have hlist : rows (fun b k => if keep k then assignments b else []) s.blocks =
      rows (fun s _ => rows (fun b k => if keep k then assignments b else []) s.blocks) [s] := by
    rw [rows_flatMap, List.flatMap_singleton]
  rw [hnode, hlist]
  refine .parts fun s _ _ => .parts fun b k _ => ?_
  cases keep k
  · exact .none
  · exact preordered_assignments b

/-! ### The two maps -/

theorem rows_of_eq {α γ : Type} (f : γ → List α) (cs : List γ) (k : Nat) :
    rows (fun c j => if (j == k) = true then f c else []) cs = (cs[k]?).elim [] f := by
  induction cs generalizing k with
  | nil => rfl
  | cons c cs ih =>
    rw [rows_cons]
    cases k with
    | zero => simp [rows]
    | succ k => simpa using ih k

theorem rows_of_ne {α γ : Type} (f : γ → List α) (cs : List γ) (k : Nat) :
    rows (fun c j => if (j != k) = true then f c else []) cs = (cs.eraseIdx k).flatMap f := by
  induction cs generalizing k with
  | nil => rfl
  | cons c cs ih =>
    rw [rows_cons]
    cases k with
    | zero => simpa using rows_flatMap f cs
    | succ k => simpa using ih k

theorem splitAssignments_eq {branches : List Branch} {otherwise : Option (List Stmt)} {span : Span}
    {k : Nat} (hk : k < branches.length) :
    splitAssignments k [.ifs branches otherwise span] =
      (rows (fun b j => if (j == k) = true then assignments b else [])
        (Stmt.ifs branches otherwise span).blocks,
      rows (fun b j => if (j != k) = true then assignments b else [])
        (Stmt.ifs branches otherwise span).blocks) := by
  have hk' : k < (branches.map (·.body)).length := by rwa [List.length_map]
  have herase : (branches.map (·.body)).eraseIdx k = (branches.eraseIdx k).map (·.body) := by
    simp only [List.eraseIdx_eq_take_drop_succ, List.map_append, List.map_take, List.map_drop]
  rw [splitAssignments, rows_of_eq, rows_of_ne, Stmt.blocks, List.getElem?_append_left hk',
    List.eraseIdx_append_of_lt_length hk', List.flatMap_append, herase, branchAssignments_eq,
    List.getElem?_map]
  cases otherwise <;> cases branches[k]? <;> simp

theorem records_kept {P : Nat → Prop} {keep : Nat → Bool} (hkeep : ∀ k, keep k = true ↔ P k) (s : Stmt) :
    (SignalMap.firsts (rows (fun b k => if keep k then assignments b else []) s.blocks)).Records
      (AssignsIn P [s]) := by
  have hat : AssignsIn P [s] = fun id path span => keptAt? keep [s] path = some (id, span) := by
    funext id path span
    exact propext (assignsIn_iff hkeep)
  rw [hat]
  exact (preordered_kept keep s).records

section
variable {p : Process} {g : ClockGuard}

theorem records_guarded (cap : Nat) (h : clockGuard? p = some g) :
    (summarize cap p).guarded.Records (AssignsIn (· = g.branch) p.body) := by
  obtain ⟨branches, otherwise, span, hbody, hlt⟩ := body_of_clockGuard? h
  simp only [summarize, h, hbody, splitAssignments_eq hlt]
  exact records_kept (fun k => beq_iff_eq) _

theorem records_unguarded (cap : Nat) (h : clockGuard? p = some g) :
    (summarize cap p).unguarded.Records (AssignsIn (· ≠ g.branch) p.body) := by
  obtain ⟨branches, otherwise, span, hbody, hlt⟩ := body_of_clockGuard? h
  simp only [summarize, h, hbody, splitAssignments_eq hlt]
  exact records_kept (fun k => bne_iff_ne) _

/-- An assignment of a clocked process stands in the guarded branch or in another block. -/
theorem assignAt?_iff_assignsIn (h : clockGuard? p = some g) {id : SignalId} {path : StmtPath} {span : Span} :
    assignAt? p.body path = some (id, span) ↔
      AssignsIn (· = g.branch) p.body id path span ∨ AssignsIn (· ≠ g.branch) p.body id path span := by
  constructor
  · intro hat
    obtain ⟨branches, otherwise, spanIf, hbody, -⟩ := body_of_clockGuard? h
    obtain ⟨k, rest, rfl⟩ : ∃ k rest, path = 0 :: k :: rest := by
      rw [hbody] at hat
      rcases path with - | ⟨_ | n, - | ⟨k, rest⟩⟩
      · cases hat
      · cases hat
      · exact ⟨k, rest, rfl⟩
      · cases hat
      · cases hat
    by_cases hk : k = g.branch
    · exact .inl ⟨hat, k, rest, rfl, hk⟩
    · exact .inr ⟨hat, k, rest, rfl, hk⟩
  · rintro (⟨hat, -⟩ | ⟨hat, -⟩) <;> exact hat

end

/-- The assignments of a body, split by whether they stand in a block under its first statement: each of
the two maps records its own kind, and of two first assignments the one that comes first is the first
of all. -/
structure Summary.SplitBy (s : Summary) (body : List Stmt) (branch : Nat) : Prop where
  keys : ∀ id, id ∈ s.writes.keys ↔ id ∈ s.guarded.keys ∨ id ∈ s.unguarded.keys
  guarded : s.guarded.Records (AssignsIn (· = branch) body)
  unguarded : s.unguarded.Records (AssignsIn (· ≠ branch) body)
  writes : ∀ id span, (id, span) ∈ s.writes ↔ ∃ path, First (fun path span =>
    First (AssignsIn (· = branch) body id) path span ∨
      First (AssignsIn (· ≠ branch) body id) path span) path span

theorem summarize_splitBy {p : Process} {g : ClockGuard} (cap : Nat) (h : clockGuard? p = some g) :
    (summarize cap p).SplitBy p.body g.branch := by
  have hin := records_guarded cap h
  have hout := records_unguarded cap h
  refine ⟨fun id => ?_, hin, hout, fun id span => ?_⟩
  · rw [hin.keys, hout.keys]
    change id ∈ (writes p.body).keys ↔ _
    simp only [(records_writes p.body).keys, assignAt?_iff_assignsIn h, exists_or]
  · change (id, span) ∈ writes p.body ↔ _
    simp only [(records_writes p.body).first, assignAt?_iff_assignsIn h]
    exact exists_congr fun path =>
      First.or_iff (fun _ _ => hin.exists_first) fun _ _ => hout.exists_first

end Flow

/-! ### Pure processes -/

open Design
open HdlLint.Flow (clockGuard?)

/-- If the process is clocked, all its assignments stand in the guarded branch. -/
def Design.Process.Pure (p : Process) : Prop :=
  ∀ g, clockGuard? p = some g → ∀ path a, Flow.stmtAt? p.body path = some (.assign a) →
    ∃ rest, path = 0 :: g.branch :: rest

theorem View.impuritiesOf_eq_nil (v : View) (cap : Nat) (p : Process) :
    v.impuritiesOf p (Flow.summarize cap p) = [] ↔ p.Pure := by
  cases hc : clockGuard? p with
  | none => simp [impuritiesOf, Flow.summarize, hc, Process.Pure]
  | some g =>
    have hnil : v.impuritiesOf p (Flow.summarize cap p) = [] ↔
        ∀ id, id ∉ (Flow.summarize cap p).unguarded.keys := by
      rw [← List.eq_nil_iff_forall_not_mem]
      simp [impuritiesOf, Flow.summarize, hc, Flow.SignalMap.keys]
    have hout := Flow.records_unguarded cap hc
    rw [hnil]
    constructor
    · intro h g' hg' path a ha
      obtain rfl : g = g' := Option.some.inj (hc.symm.trans hg')
      have hat : Flow.assignAt? p.body path = some (a.target, a.span) :=
        Flow.assignAt?_eq_some.2 ⟨a, ha, rfl, rfl⟩
      rcases (Flow.assignAt?_iff_assignsIn hc).1 hat with ⟨-, k, rest, rfl, rfl⟩ | hother
      · exact ⟨rest, rfl⟩
      · exact absurd ((hout.keys a.target).2 ⟨path, a.span, hother⟩) (h a.target)
    · intro h id hid
      obtain ⟨path, span, hat, k, rest, rfl, hk⟩ := (hout.keys id).1 hid
      obtain ⟨a, ha, -⟩ := Flow.assignAt?_eq_some.1 hat
      obtain ⟨rest', heq⟩ := h g hc _ a ha
      exact hk (List.cons.inj (List.cons.inj heq).2).1

/-- A process without a clock edge has no assignments on either side of one. Those of a clocked process
are split by the branch that asks for the edge, and the rule on clocked processes finds nothing in a
process exactly if all of them stand in this branch. -/
theorem guardedWrites_split (cap : Nat) (p : Process) :
    (clockGuard? p = none →
        (Flow.summarize cap p).guarded = [] ∧ (Flow.summarize cap p).unguarded = []) ∧
      (∀ g, clockGuard? p = some g →
        (∃ branches otherwise span, p.body = [.ifs branches otherwise span] ∧
          g.branch < branches.length) ∧ (Flow.summarize cap p).SplitBy p.body g.branch) ∧
      (∀ v : View, v.impuritiesOf p (Flow.summarize cap p) = [] ↔ p.Pure) ∧
      ∀ top i, (View.ofInstance top cap i).clockedProcessImpure = [] ↔ ∀ q ∈ i.processes, q.Pure := by
  refine ⟨fun h => ?_, fun g h => ⟨Flow.body_of_clockGuard? h, Flow.summarize_splitBy cap h⟩,
    fun v => v.impuritiesOf_eq_nil cap p, fun top i => ?_⟩
  · simp only [Flow.summarize, h]
    exact ⟨rfl, rfl⟩
  · rw [View.clockedProcessImpure, View.flatMap_processes_eq_nil]
    exact forall₂_congr fun q _ => View.impuritiesOf_eq_nil _ cap q

/-- `if rst = '1' then q <= '0'; elsif rising_edge(clk) then q <= d; end if;` with the signals `clk`,
`rst`, `d` and `q`, in this order. -/
def resetRegister : Process where
  origin := ⟨"dff", "rtl", 0, some "reg", ⟨0, 0, 80⟩⟩
  name := "reg"
  scope := default
  sensitivity := .list [(0, ⟨0, 0, 3⟩), (1, ⟨0, 5, 8⟩)]
  body := [.ifs
    [⟨.binary .eq (.signal 1 ⟨0, 3, 6⟩) (.const (.char '1') ⟨0, 9, 12⟩) ⟨0, 3, 12⟩, "rst = '1'",
        [.assign ⟨3, ⟨0, 18, 19⟩, none, .const (.char '0') ⟨0, 23, 26⟩, ⟨0, 18, 27⟩⟩]⟩,
      ⟨.call "rising_edge" [.signal 0 ⟨0, 46, 49⟩] ⟨0, 34, 50⟩, "rising_edge(clk)",
        [.assign ⟨3, ⟨0, 56, 57⟩, none, .signal 2 ⟨0, 61, 62⟩, ⟨0, 56, 63⟩⟩]⟩]
    none ⟨0, 0, 71⟩]

theorem guardedWrites_split_resetRegister :
    clockGuard? resetRegister = some ⟨0, .rising, 1, ⟨0, 34, 50⟩⟩ ∧
      (Flow.summarize 1 resetRegister).SplitBy resetRegister.body 1 ∧
      (Flow.summarize 1 resetRegister).guarded = [(3, ⟨0, 56, 63⟩)] ∧
      (Flow.summarize 1 resetRegister).unguarded = [(3, ⟨0, 18, 27⟩)] :=
  have h : clockGuard? resetRegister = some ⟨0, .rising, 1, ⟨0, 34, 50⟩⟩ := by decide
  ⟨h, ((guardedWrites_split 1 resetRegister).2.1 _ h).2, by decide, by decide⟩

end HdlLint
