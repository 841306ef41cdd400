import Mathlib.Data.List.Sort
import HdlLint.Flow.Path
import HdlLint.Proofs.Occurrence
import HdlLint.Proofs.SignalSet

/-!
# The listed runs are the first of all runs

`allRuns` lists the runs through a body without any limit. The enumeration with a limit cuts what it
has at every statement and at every branch, and still it gives the first of all runs, and tells
whether there are more (`writePaths_eq_take`). Cutting early is harmless because no list of runs is
empty: each of the first runs up to a statement is continued at least once, so the runs behind the
limit are never needed (`Listing.product_upTo`).

The enumeration goes through a block from its first statement on, with the runs so far. That this is the
same as to start with the runs through the last one is due to the order of the runs and to the sets of
signals being ascending (`allPairs_assoc`).
-/

namespace HdlLint.Flow
open Design (SignalId Stmt Branch Arm block_induction)

/-! ### All runs -/

mutual

/-- The runs through a statement. -/
def stmtAllRuns : Stmt → List WritePath
  | .assign a => [{ written := [a.target] }]
  | .ifs branches none _ => branchAllRuns [{}] [] branches
  | .ifs branches (some body) _ => branchAllRuns (allRuns body) [] branches
  | .case _ subject arms none _ => armAllRuns [{}] subject arms
  | .case _ subject arms (some body) _ => armAllRuns (allRuns body) subject arms
  | .null _ => [{}]

/-- The runs through a block. -/
def allRuns : List Stmt → List WritePath
  | [] => [{}]
  | s :: ss => (stmtAllRuns s).flatMap fun p => (allRuns ss).map p.andThen

/-- The runs through the branches of an `if`, then those on which all its conditions fail. -/
def branchAllRuns (otherwise : List WritePath) (failed : List Decision) :
    List Branch → List WritePath
  | [] => otherwise.map (·.after failed)
  | ⟨_, text, body⟩ :: bs =>
    (allRuns body).map (·.after (failed ++ [.holds text])) ++
      branchAllRuns otherwise (failed ++ [.fails text]) bs

/-- The runs through the arms of a `case`, then those on which none is met. -/
def armAllRuns (others : List WritePath) (subject : String) : List Arm → List WritePath
  | [] => others.map (·.after [.isOther subject])
  | ⟨_, text, body⟩ :: as =>
    (allRuns body).map (·.after [⟨subject, text⟩]) ++ armAllRuns others subject as

end

mutual

/-- The number of runs through a statement: a choice adds up those of its blocks, and passing it by
counts for one. -/
def stmtRunCount : Stmt → Nat
  | .assign _ | .null _ => 1
  | .ifs branches none _ => branchRunCount branches + 1
  | .ifs branches (some body) _ => branchRunCount branches + runCount body
  | .case _ _ arms none _ => armRunCount arms + 1
  | .case _ _ arms (some body) _ => armRunCount arms + runCount body

/-- The number of runs through a block: the product over its statements. -/
def runCount : List Stmt → Nat
  | [] => 1
  | s :: ss => stmtRunCount s * runCount ss

/-- The number of runs through the branches of an `if`. -/
def branchRunCount : List Branch → Nat
  | [] => 0
  | ⟨_, _, body⟩ :: bs => runCount body + branchRunCount bs

/-- The number of runs through the arms of a `case`. -/
def armRunCount : List Arm → Nat
  | [] => 0
  | ⟨_, _, body⟩ :: as => runCount body + armRunCount as

end

section Count

theorem length_branchAllRuns {bs : List Branch} {otherwise : List WritePath}
    (ih : ∀ b ∈ bs, (allRuns b.body).length = runCount b.body) (failed : List Decision) :
    (branchAllRuns otherwise failed bs).length = branchRunCount bs + otherwise.length := by
  induction bs generalizing failed with
  | nil => simp [branchAllRuns, branchRunCount]
  | cons b bs ihbs =>
    obtain ⟨condition, text, body⟩ := b
    have hbody : (allRuns body).length = runCount body := ih ⟨condition, text, body⟩ (by simp)
    have hrest := ihbs (fun b hb => ih b (by simp [hb])) (failed ++ [.fails text])
    rw [branchAllRuns, branchRunCount, List.length_append, List.length_map, hbody, hrest]
    omega

theorem length_armAllRuns {as : List Arm} {others : List WritePath} {subject : String}
    (ih : ∀ a ∈ as, (allRuns a.body).length = runCount a.body) :
    (armAllRuns others subject as).length = armRunCount as + others.length := by
  induction as with
  | nil => simp [armAllRuns, armRunCount]
  | cons a as ihas =>
    obtain ⟨choices, text, body⟩ := a
    have hbody : (allRuns body).length = runCount body := ih ⟨choices, text, body⟩ (by simp)
    have hrest := ihas fun a ha => ih a (by simp [ha])
    rw [armAllRuns, armRunCount, List.length_append, List.length_map, hbody, hrest]
    omega

theorem length_stmtAllRuns {s : Stmt}
    (ih : ∀ b ∈ s.alternatives, (allRuns b).length = runCount b) :
    (stmtAllRuns s).length = stmtRunCount s := by
  cases s with
  | assign | null => simp [stmtAllRuns, stmtRunCount]
  | ifs branches otherwise span =>
    have hbranches : ∀ b ∈ branches, (allRuns b.body).length = runCount b.body :=
      fun b hb => ih b.body (Stmt.branch_mem_alternatives hb)
    cases otherwise with
    | none => simp [stmtAllRuns, stmtRunCount, length_branchAllRuns hbranches]
    | some body =>
      rw [stmtAllRuns, stmtRunCount, length_branchAllRuns hbranches,
        ih body Stmt.otherwise_mem_alternatives]
  | case subject text arms others span =>
    have harms : ∀ a ∈ arms, (allRuns a.body).length = runCount a.body :=
      fun a ha => ih a.body (Stmt.arm_mem_alternatives ha)
    cases others with
    | none => simp [stmtAllRuns, stmtRunCount, length_armAllRuns harms]
    | some body =>
      rw [stmtAllRuns, stmtRunCount, length_armAllRuns harms,
        ih body Stmt.others_mem_alternatives]

/-- The number of all runs is a product over sequences and a sum over choices. -/
theorem length_allRuns (body : List Stmt) : (allRuns body).length = runCount body := by
  induction body using block_induction with
  | nil => rfl
  | cons s ss ihs ih =>
    rw [allRuns, runCount, ← length_stmtAllRuns ihs, ← ih, List.length_flatMap]
    simp

end Count

/-! ### Runs by what they write -/

theorem exists_mem_branchAllRuns {P : SignalSet → Prop} {otherwise : List WritePath}
    (failed : List Decision) (bs : List Branch) :
    (∃ p ∈ branchAllRuns otherwise failed bs, P p.written) ↔
      (∃ b ∈ bs, ∃ p ∈ allRuns b.body, P p.written) ∨ ∃ p ∈ otherwise, P p.written := by
  induction bs generalizing failed with
  | nil => simp [branchAllRuns, WritePath.after]
  | cons b bs ih =>
    obtain ⟨condition, text, body⟩ := b
    simp only [branchAllRuns, List.mem_append, or_and_right, exists_or, ih]
    simp [WritePath.after, or_assoc]

theorem exists_mem_armAllRuns {P : SignalSet → Prop} {others : List WritePath} (subject : String)
    (as : List Arm) :
    (∃ p ∈ armAllRuns others subject as, P p.written) ↔
      (∃ a ∈ as, ∃ p ∈ allRuns a.body, P p.written) ∨ ∃ p ∈ others, P p.written := by
  induction as with
  | nil => simp [armAllRuns, WritePath.after]
  | cons a as ih =>
    obtain ⟨choices, text, body⟩ := a
    simp only [armAllRuns, List.mem_append, or_and_right, exists_or, ih]
    simp [WritePath.after, or_assoc]

/-- What is written on a run through a choice is written on a run through one of its blocks. -/
theorem exists_mem_stmtAllRuns {P : SignalSet → Prop} {s : Stmt} (h : s.alternatives ≠ []) :
    (∃ p ∈ stmtAllRuns s, P p.written) ↔ ∃ b ∈ s.alternatives, ∃ p ∈ allRuns b, P p.written := by
  cases s with
  | assign | null => simp [Stmt.alternatives] at h
  | ifs branches otherwise span =>
    cases otherwise <;>
      simp [stmtAllRuns, Stmt.alternatives, exists_mem_branchAllRuns, allRuns, or_and_right, exists_or]
  | case subject text arms others span =>
    cases others <;>
      simp [stmtAllRuns, Stmt.alternatives, exists_mem_armAllRuns, allRuns, or_and_right, exists_or]

theorem forall_mem_stmtAllRuns {P : SignalSet → Prop} {s : Stmt} (h : s.alternatives ≠ []) :
    (∀ p ∈ stmtAllRuns s, P p.written) ↔ ∀ b ∈ s.alternatives, ∀ p ∈ allRuns b, P p.written := by
  have hex := exists_mem_stmtAllRuns (P := fun w => ¬ P w) h
  rw [← not_iff_not]
  simpa using hex

theorem stmtAllRuns_ne_nil {s : Stmt} (ih : ∀ b ∈ s.alternatives, allRuns b ≠ []) :
    stmtAllRuns s ≠ [] := by
  by_cases h : s.alternatives = []
  · cases s with
    | assign | null => simp [stmtAllRuns]
    | ifs | case => simp [Stmt.alternatives] at h
  · obtain ⟨b, hb⟩ := List.exists_mem_of_ne_nil _ h
    obtain ⟨p, hp⟩ := List.exists_mem_of_ne_nil _ (ih b hb)
    obtain ⟨q, hq, -⟩ := (exists_mem_stmtAllRuns (P := fun _ => True) h).2 ⟨b, hb, p, hp, trivial⟩
    exact List.ne_nil_of_mem hq

theorem allRuns_ne_nil (body : List Stmt) : allRuns body ≠ [] := by
  induction body using block_induction with
  | nil => simp [allRuns]
  | cons s ss ihs ih =>
    obtain ⟨p, hp⟩ := List.exists_mem_of_ne_nil _ (stmtAllRuns_ne_nil ihs)
    obtain ⟨q, hq⟩ := List.exists_mem_of_ne_nil _ ih
    rw [allRuns]
    exact List.ne_nil_of_mem (List.mem_flatMap.2 ⟨p, hp, List.mem_map_of_mem hq⟩)

/-! ### One run after another -/

theorem WritePath.andThen_empty (p : WritePath) : p.andThen {} = p := by
  simp [andThen, SignalSet.union]

theorem WritePath.empty_andThen {p : WritePath} (h : p.written.Ascending) :
    ({} : WritePath).andThen p = p := by
  have hwritten : SignalSet.union [] p.written = p.written :=
    List.Pairwise.eq_of_mem_iff (SignalSet.Ascending.nil.union _) h (by simp)
  rw [andThen, hwritten]
  rfl

theorem WritePath.andThen_assoc {p : WritePath} (h : p.written.Ascending) (q r : WritePath) :
    (p.andThen q).andThen r = p.andThen (q.andThen r) := by
  have hwritten : SignalSet.union (SignalSet.union p.written q.written) r.written =
      SignalSet.union p.written (SignalSet.union q.written r.written) :=
    List.Pairwise.eq_of_mem_iff ((h.union _).union _) (h.union _) (by simp [or_assoc])
  simp only [andThen, List.append_assoc, hwritten]

/-- Each run of the first list is continued by each of the second. -/
def allPairs (ps qs : List WritePath) : List WritePath := ps.flatMap fun p => qs.map p.andThen

section
variable {ps qs : List WritePath}

theorem allPairs_cons {p : WritePath} : allPairs (p :: ps) qs = qs.map p.andThen ++ allPairs ps qs :=
  List.flatMap_cons

theorem length_allPairs : (allPairs ps qs).length = ps.length * qs.length := by
  rw [allPairs, List.length_flatMap]
  simp

theorem allPairs_ne_nil (hp : ps ≠ []) (hq : qs ≠ []) : allPairs ps qs ≠ [] := by
  rw [← List.length_pos_iff, length_allPairs]
  exact Nat.mul_pos (List.length_pos_iff.2 hp) (List.length_pos_iff.2 hq)

theorem allPairs_empty : allPairs ps [{}] = ps := by
  simp [allPairs, WritePath.andThen_empty]

theorem empty_allPairs (h : ∀ q ∈ qs, q.written.Ascending) : allPairs [{}] qs = qs := by
  rw [allPairs, List.flatMap_singleton]
  exact (List.map_congr_left fun q hq => WritePath.empty_andThen (h q hq)).trans (List.map_id qs)

theorem ascending_of_mem_allPairs (h : ∀ p ∈ ps, p.written.Ascending) :
    ∀ r ∈ allPairs ps qs, r.written.Ascending := by
  intro r hr
  obtain ⟨p, hp, hr⟩ := List.mem_flatMap.1 hr
  obtain ⟨q, -, rfl⟩ := List.mem_map.1 hr
  exact (h p hp).union q.written

theorem allPairs_assoc (h : ∀ p ∈ ps, p.written.Ascending) (qs rs : List WritePath) :
    allPairs (allPairs ps qs) rs = allPairs ps (allPairs qs rs) := by
  rw [allPairs, allPairs, List.flatMap_assoc]
  refine List.flatMap_congr fun p hp => ?_
  rw [List.flatMap_map, allPairs, List.map_flatMap]
  refine List.flatMap_congr fun q _ => ?_
  rw [List.map_map]
  exact List.map_congr_left fun r _ => WritePath.andThen_assoc (h p hp) q r

end

theorem ascending_of_mem_stmtAllRuns {s : Stmt}
    (ih : ∀ b ∈ s.alternatives, ∀ p ∈ allRuns b, p.written.Ascending) :
    ∀ p ∈ stmtAllRuns s, p.written.Ascending := by
  by_cases h : s.alternatives = []
  · cases s with
    | assign a => exact List.forall_mem_singleton.2 (.singleton a.target)
    | null => exact List.forall_mem_singleton.2 .nil
    | ifs | case => simp [Stmt.alternatives] at h
  · exact (forall_mem_stmtAllRuns h).2 ih

theorem ascending_of_mem_allRuns (body : List Stmt) : ∀ p ∈ allRuns body, p.written.Ascending := by
  induction body using block_induction with
  | nil => exact List.forall_mem_singleton.2 .nil
  | cons s ss ihs _ => exact ascending_of_mem_allPairs (ascending_of_mem_stmtAllRuns ihs)

/-! ### Cutting -/

/-- The first runs that continue one of `ps` by one of `qs` need only the first of `qs`. -/
theorem take_allPairs_take_right {cap c : Nat} {ps qs : List WritePath} (h : c ≤ cap) :
    (allPairs ps (qs.take cap)).take c = (allPairs ps qs).take c := by
  induction ps generalizing c with
  | nil => rfl
  | cons p ps ih =>
    simp only [allPairs_cons, List.take_append, ← List.map_take, List.take_take, Nat.min_eq_left h,
      List.length_map, List.length_take]
    congr 1
    rw [ih (by omega)]
    -- behind a row that was cut nothing more is taken
    rcases Nat.le_total qs.length cap with hle | hle
    · rw [Nat.min_eq_right hle]
    · rw [Nat.min_eq_left hle, Nat.sub_eq_zero_of_le h, Nat.sub_eq_zero_of_le (Nat.le_trans h hle)]

/-- Each run of `ps` goes on in at least one way, so `c` of them give `c` runs. -/
theorem take_allPairs_take_left {cap c : Nat} {ps qs : List WritePath} (h : c ≤ cap) (hq : qs ≠ []) :
    (allPairs (ps.take cap) qs).take c = (allPairs ps qs).take c := by
  induction ps generalizing c cap with
  | nil => simp
  | cons p ps ih =>
    cases cap with
    | zero =>
      obtain rfl : c = 0 := by omega
      simp
    | succ cap =>
      have hpos : 0 < qs.length := List.length_pos_iff.2 hq
      simp only [List.take_succ_cons, allPairs_cons, List.take_append, List.length_map]
      -- the runs that start with `p` take up at least one of the `c` places
      rw [ih (by omega)]

theorem lt_mul_iff {cap m n : Nat} (hm : 0 < m) (hn : 0 < n) :
    (cap < m ∨ cap < n) ∨ cap < min cap m * min cap n ↔ cap < m * n := by
  constructor
  · rintro ((h | h) | h)
    · exact Nat.lt_of_lt_of_le h (Nat.le_mul_of_pos_right m hn)
    · exact Nat.lt_of_lt_of_le h (Nat.le_mul_of_pos_left n hm)
    · exact Nat.lt_of_lt_of_le h (Nat.mul_le_mul (Nat.min_le_right _ _) (Nat.min_le_right _ _))
  · intro h
    by_cases h₁ : cap < m
    · exact .inl (.inl h₁)
    by_cases h₂ : cap < n
    · exact .inl (.inr h₂)
    -- neither list was cut
    rw [Nat.min_eq_right (Nat.le_of_not_lt h₁), Nat.min_eq_right (Nat.le_of_not_lt h₂)]
    exact .inr h

namespace Listing
variable {cap : Nat} {ps qs : List WritePath}

/-- The first `cap` of some runs, and whether there are more. -/
def upTo (cap : Nat) (ps : List WritePath) : Listing := ⟨(ps.take cap).toArray, decide (cap < ps.length)⟩

theorem single_eq_upTo (hcap : 1 ≤ cap) (p : WritePath) : single p = upTo cap [p] := by
  obtain ⟨n, rfl⟩ := Nat.exists_eq_add_of_le' hcap
  simp [single, upTo]

theorem empty_eq_upTo : ({} : Listing) = upTo cap [] := by
  simp [upTo]

/-- What is added is cut at the limit, and the flag says whether something is left. -/
theorem extend_eq (f : WritePath → WritePath) {out : Listing} (h : out.runs.size ≤ cap)
    (ps : List WritePath) : out.extend cap f ps =
      ⟨out.runs ++ ((ps.map f).take (cap - out.runs.size)).toArray,
        out.truncated || decide (cap < out.runs.size + ps.length)⟩ := by
  induction ps generalizing out with
  | nil => simp [extend, Nat.not_lt.2 h]
  | cons p ps ih =>
    rw [extend]
    split_ifs with hlt
    · obtain ⟨n, hn⟩ : ∃ n, cap - out.runs.size = n + 1 := ⟨cap - out.runs.size - 1, by omega⟩
      have hrest : cap - (out.runs.push (f p)).size = n := by rw [Array.size_push]; omega
      rw [ih (by rw [Array.size_push]; omega), hrest, hn, List.map_cons, List.take_succ_cons,
        List.length_cons, Array.size_push, Nat.add_right_comm, Nat.add_assoc]
      simp
    · have hfull : cap - out.runs.size = 0 := by omega
      have hmore : cap < out.runs.size + (ps.length + 1) := by omega
      simp [hfull, hmore]

/-- Cutting both lists loses nothing, as the runs behind the limit come after `cap` others. -/
theorem choose_upTo (ds : List Decision) :
    (upTo cap ps).choose cap ds (upTo cap qs) = upTo cap (ps ++ qs.map (·.after ds)) := by
  have hsize : ∀ truncated, (Listing.mk (upTo cap ps).runs truncated).runs.size ≤ cap := by simp [upTo]
  rw [choose, extend_eq _ (hsize _)]
  simp only [upTo, Listing.mk.injEq]
  constructor
  · rw [List.append_toArray]
    refine congrArg List.toArray ?_
    simp only [List.size_toArray, List.length_take, List.map_take, List.take_take, List.take_append]
    congr 2
    omega
  · rw [Bool.eq_iff_iff]
    simp only [List.size_toArray, List.length_take, List.length_append, List.length_map, Bool.or_eq_true,
      decide_eq_true_eq]
    omega

/-- The rows of the product one after the other. -/
theorem foldl_extend_eq {out : Listing} (h : out.runs.size ≤ cap) :
    ps.foldl (fun out p => out.extend cap p.andThen qs) out =
      ⟨out.runs ++ ((allPairs ps qs).take (cap - out.runs.size)).toArray,
        out.truncated || decide (cap < out.runs.size + ps.length * qs.length)⟩ := by
  induction ps generalizing out with
  | nil => simp [allPairs, Nat.not_lt.2 h]
  | cons p ps ih =>
    rw [List.foldl_cons, extend_eq _ h, ih (by simp; omega)]
    simp only [Listing.mk.injEq, Array.size_append, List.size_toArray, List.length_take, List.length_map]
    constructor
    · have hroom : cap - (out.runs.size + min (cap - out.runs.size) qs.length) =
          cap - out.runs.size - qs.length := by omega
      rw [hroom, Array.append_assoc, allPairs_cons, List.take_append, List.length_map, ← List.append_toArray]
    · have hrows : (ps.length + 1) * qs.length = qs.length + ps.length * qs.length := by
        rw [Nat.succ_mul, Nat.add_comm]
      rw [Bool.eq_iff_iff, List.length_cons, hrows]
      simp only [Bool.or_eq_true, decide_eq_true_eq, or_assoc]
      refine or_congr_right ?_
      omega

/-- Cutting both lists loses nothing, and no flag is raised too early: a list that is longer than
`cap` makes the product longer than `cap`, as the other list is not empty. -/
theorem product_upTo (hp : ps ≠ []) (hq : qs ≠ []) :
    (upTo cap ps).product cap (upTo cap qs) = upTo cap (allPairs ps qs) := by
  rw [product, ← Array.foldl_toList, foldl_extend_eq (Nat.zero_le cap)]
  simp only [upTo, Listing.mk.injEq, List.size_toArray, List.length_nil, Nat.sub_zero, Nat.zero_add,
    length_allPairs, List.length_take]
  constructor
  · rw [take_allPairs_take_right (Nat.le_refl cap), take_allPairs_take_left (Nat.le_refl cap) hq]
    simp
  · rw [Bool.eq_iff_iff]
    simp only [Bool.or_eq_true, decide_eq_true_eq]
    exact lt_mul_iff (List.length_pos_iff.2 hp) (List.length_pos_iff.2 hq)

end Listing

/-! ### The enumeration with a limit -/

section Limit
variable {cap : Nat}
open Listing

/-- The runs through a block are the first of all of them. -/
def Complete (cap : Nat) (body : List Stmt) : Prop :=
  blockRuns cap (.single {}) body = upTo cap (allRuns body)

theorem branchRuns_upTo {bs : List Branch} {otherwise before : List WritePath}
    (ih : ∀ b ∈ bs, Complete cap b.body) (failed : List Decision) :
    branchRuns cap (upTo cap otherwise) (upTo cap before) failed bs =
      upTo cap (before ++ branchAllRuns otherwise failed bs) := by
  induction bs generalizing failed before with
  | nil => exact choose_upTo failed
  | cons b bs ihbs =>
    obtain ⟨condition, text, body⟩ := b
    have hbody : Complete cap body := ih ⟨condition, text, body⟩ (by simp)
    rw [branchRuns, branchAllRuns, hbody, choose_upTo, ihbs (fun b hb => ih b (by simp [hb])),
      List.append_assoc]

theorem armRuns_upTo {as : List Arm} {others before : List WritePath} {subject : String}
    (ih : ∀ a ∈ as, Complete cap a.body) :
    armRuns cap (upTo cap others) subject (upTo cap before) as =
      upTo cap (before ++ armAllRuns others subject as) := by
  induction as generalizing before with
  | nil => exact choose_upTo _
  | cons a as ihas =>
    obtain ⟨choices, text, body⟩ := a
    have hbody : Complete cap body := ih ⟨choices, text, body⟩ (by simp)
    rw [armRuns, armAllRuns, hbody, choose_upTo, ihas (fun a ha => ih a (by simp [ha])), List.append_assoc]

theorem stmtRuns_upTo (hcap : 1 ≤ cap) {s : Stmt} (ih : ∀ b ∈ s.alternatives, Complete cap b) :
    stmtRuns cap s = upTo cap (stmtAllRuns s) := by
  cases s with
  | assign a => exact single_eq_upTo hcap _
  | null span => exact single_eq_upTo hcap _
  | ifs branches otherwise span =>
    have hbranches : ∀ b ∈ branches, Complete cap b.body :=
      fun b hb => ih b.body (Stmt.branch_mem_alternatives hb)
    cases otherwise with
    | none =>
      rw [stmtRuns, stmtAllRuns, single_eq_upTo hcap, empty_eq_upTo, branchRuns_upTo hbranches,
        List.nil_append]
    | some body =>
      rw [stmtRuns, stmtAllRuns, ih body Stmt.otherwise_mem_alternatives, empty_eq_upTo,
        branchRuns_upTo hbranches, List.nil_append]
  | case subject text arms others span =>
    have harms : ∀ a ∈ arms, Complete cap a.body := fun a ha => ih a.body (Stmt.arm_mem_alternatives ha)
    cases others with
    | none =>
      rw [stmtRuns, stmtAllRuns, single_eq_upTo hcap, empty_eq_upTo, armRuns_upTo harms, List.nil_append]
    | some body =>
      rw [stmtRuns, stmtAllRuns, ih body Stmt.others_mem_alternatives, empty_eq_upTo, armRuns_upTo harms,
        List.nil_append]

/-- Runs that are listed up to the limit are continued through a block up to the limit. -/
theorem blockRuns_upTo (hcap : 1 ≤ cap) (body : List Stmt) : ∀ {ps : List WritePath}, ps ≠ [] →
    (∀ p ∈ ps, p.written.Ascending) →
      blockRuns cap (upTo cap ps) body = upTo cap (allPairs ps (allRuns body)) := by
  induction body using block_induction with
  | nil =>
    intro ps _ _
    rw [blockRuns, allRuns, allPairs_empty]
  | cons s ss ihs ih =>
    intro ps hps hascending
    have hblocks : ∀ b ∈ s.alternatives, Complete cap b := by
      intro b hb
      rw [Complete, single_eq_upTo hcap, ihs b hb (by simp) (List.forall_mem_singleton.2 .nil),
        empty_allPairs (ascending_of_mem_allRuns b)]
    have hs : stmtAllRuns s ≠ [] := stmtAllRuns_ne_nil fun b _ => allRuns_ne_nil b
    rw [blockRuns, stmtRuns_upTo hcap hblocks, product_upTo hps hs, ih (allPairs_ne_nil hps hs)
      (ascending_of_mem_allPairs hascending), allPairs_assoc hascending]
    rfl

theorem complete (hcap : 1 ≤ cap) (body : List Stmt) : Complete cap body := by
  rw [Complete, single_eq_upTo hcap, blockRuns_upTo hcap body (by simp) (List.forall_mem_singleton.2 .nil),
    empty_allPairs (ascending_of_mem_allRuns body)]

end Limit

theorem writePaths_eq (body : List Stmt) (cap : Nat) : writePaths body cap =
    ⟨(allRuns body).take (max cap 1), decide (max cap 1 < (allRuns body).length)⟩ := by
  rw [writePaths, complete (Nat.le_max_right cap 1) body]
  rfl

/-- The enumeration lists the first `cap` of all runs, but at least one, and says that some are
missing exactly if there are more. The number of all runs is a product over sequences and a sum over
choices, and with that number as the limit the enumeration lists them all. -/
theorem writePaths_eq_take (body : List Stmt) (cap : Nat) :
    (writePaths body cap).paths = (allRuns body).take (max cap 1) ∧
      ((writePaths body cap).truncated = true ↔ max cap 1 < (allRuns body).length) ∧
      (allRuns body).length = runCount body ∧
      writePaths body (runCount body) = ⟨allRuns body, false⟩ := by
  refine ⟨by rw [writePaths_eq], by rw [writePaths_eq]; exact decide_eq_true_iff, length_allRuns body, ?_⟩
  have hlen : (allRuns body).length ≤ max (runCount body) 1 := by
    rw [length_allRuns]
    exact Nat.le_max_left _ _
  rw [writePaths_eq, List.take_of_length_le hlen, decide_eq_false (Nat.not_lt.2 hlen)]

end HdlLint.Flow
