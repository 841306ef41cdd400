import Mathlib.Data.Int.Interval
import Mathlib.Data.Set.Card
import Mathlib.Order.Bounds.Basic
import HdlLint.Proofs.Arithmetic
import HdlLint.Proofs.Unrolling

/-!
# Ranges are exact

The numbers of a range are an interval, whichever way it runs (`RangeDirection.numbers`). A loop is built
once for each of them, in the order of its direction, and a range of a type has as many bits as there are
numbers in the interval: whatever the bounds are, nothing is lost or counted twice at the ends of a word.

`ranges_exact` also tells the width of an enumeration, which is the least number of bits, but at least
one, that tells its literals apart.
-/

namespace HdlLint.Syntax.RangeDirection

/-- The numbers of a range. There are none if it runs the wrong way. -/
def numbers : RangeDirection → Int → Int → Set Int
  | .to, left, right => {k | left ≤ k ∧ k ≤ right}
  | .downto, left, right => {k | right ≤ k ∧ k ≤ left}

/-- In a range of this direction the first number comes before the second. -/
def Before : RangeDirection → Int → Int → Prop
  | .to, i, j => i < j
  | .downto, i, j => j < i

/-- The list holds the numbers of the range, in its order. -/
structure Lists (direction : RangeDirection) (left right : Int) (ks : List Int) : Prop where
  mem : ∀ k, k ∈ ks ↔ k ∈ direction.numbers left right
  order : ks.Pairwise direction.Before

end HdlLint.Syntax.RangeDirection

namespace HdlLint.Design
open Syntax (Library RangeDirection)

/-! ### Indices -/

section
variable {direction : RangeDirection} {left right k : Int}

theorem ncard_between (i j : Int) : {k | i ≤ k ∧ k ≤ j}.ncard = (j - i + 1).toNat := by
  have hset : {k | i ≤ k ∧ k ≤ j} = (Finset.Icc i j : Set Int) := (Finset.coe_Icc i j).symm
  rw [hset, Set.ncard_coe_finset, Int.card_Icc, sub_add_eq_add_sub]

theorem rangeLength_eq_ncard (left : Int) (direction : RangeDirection) (right : Int) :
    rangeLength left direction right = (direction.numbers left right).ncard := by
  cases direction with
  | «to» => rw [RangeDirection.numbers, ncard_between, rangeLength]
  | downto => rw [RangeDirection.numbers, ncard_between, rangeLength]

theorem indicesFrom_eq_map (direction : RangeDirection) (n : Nat) (i : Int) :
    indicesFrom direction n i = (List.range n).map (roundIndex direction i) := by
  induction n generalizing i with
  | zero => rfl
  | succ n ih =>
    have hfirst : roundIndex direction i 0 = i := by
      cases direction <;> simp only [roundIndex] <;> omega
    have hrest : ∀ r, roundIndex direction (nextIndex direction i) r = roundIndex direction i (r + 1) := by
      intro r
      cases direction <;> simp only [roundIndex, nextIndex] <;> omega
    rw [indicesFrom, ih, List.range_succ_eq_map, List.map_cons, List.map_map, hfirst]
    exact congrArg (i :: ·) (List.map_congr_left fun r _ => hrest r)

theorem mem_indices : k ∈ indices left direction right ↔ k ∈ direction.numbers left right := by
  have hmem : k ∈ indices left direction right ↔
      ∃ r < rangeLength left direction right, roundIndex direction left r = k := by
    rw [indices, indicesFrom_eq_map, List.mem_map]
    simp only [List.mem_range]
  rw [hmem]
  cases direction with
  | «to» =>
    simp only [RangeDirection.numbers, Set.mem_ofPred_eq, rangeLength, roundIndex]
    constructor
    · rintro ⟨r, hr, rfl⟩
      omega
    · intro hk
      exact ⟨(k - left).toNat, by omega, by omega⟩
  | downto =>
    simp only [RangeDirection.numbers, Set.mem_ofPred_eq, rangeLength, roundIndex]
    constructor
    · rintro ⟨r, hr, rfl⟩
      omega
    · intro hk
      exact ⟨(left - k).toNat, by omega, by omega⟩

theorem pairwise_indices (left : Int) (direction : RangeDirection) (right : Int) :
    (indices left direction right).Pairwise direction.Before := by
  rw [indices, indicesFrom_eq_map, List.pairwise_map]
  refine List.pairwise_lt_range.imp fun {r s} hlt => ?_
  cases direction <;> simp only [RangeDirection.Before, roundIndex] <;> omega

theorem length_indices (left : Int) (direction : RangeDirection) (right : Int) :
    (indices left direction right).length = rangeLength left direction right := by
  rw [indices, indicesFrom_eq_map, List.length_map, List.length_range]

theorem eq_roundIndex_of_getElem? {r : Nat} (h : (indices left direction right)[r]? = some k) :
    k = roundIndex direction left r := by
  rw [indices, indicesFrom_eq_map, List.getElem?_map] at h
  obtain ⟨s, hs, rfl⟩ := Option.map_eq_some_iff.1 h
  obtain ⟨hlt, heq⟩ := List.getElem?_eq_some_iff.1 hs
  rw [← heq, List.getElem_range]

theorem lists_indices (left : Int) (direction : RangeDirection) (right : Int) :
    direction.Lists left right (indices left direction right) :=
  ⟨fun _ => mem_indices, pairwise_indices left direction right⟩

theorem fits_of_mem_numbers (hleft : Word.fits left = true) (hright : Word.fits right = true)
    (hk : k ∈ direction.numbers left right) : Word.fits k = true := by
  rw [Word.fits_iff] at hleft hright ⊢
  cases direction with
  | «to» =>
    rw [RangeDirection.numbers, Set.mem_ofPred_eq] at hk
    omega
  | downto =>
    rw [RangeDirection.numbers, Set.mem_ofPred_eq] at hk
    omega

end

/-! ### Loops -/

/-- One round of a loop, in which its variable stands for `k` and the processes are numbered from `base`
on. -/
def expandRound (l : Library) (a : Syntax.Architecture) (path : Path) (g : Syntax.Generate) (base : Nat)
    (b : Builder) (k : Int) : Result Builder := do
  let path := path ++ [.generate g.label k]
  let scope := b.scope.push.bind g.var (.constant (.int k))
  let (scope, signals) ← bindDecls path scope b.signals g.decls
  let b ← expandStmts l a path { b with scope, signals, nextOrdinal := base } g.body
  return { b with scope := b.scope.pop }

theorem evalInt_of_int {scope : Scope} {e : Syntax.Expr} {n : Int} (h : eval scope e = .ok (.int n))
    (fault : String → DesignError) : evalInt scope e fault = .ok n :=
  Result.bind_eq_ok.2 ⟨_, h, rfl⟩

/-- The bounds of the range are these numbers. -/
structure Scope.Bounds (scope : Scope) (r : Syntax.Range) (left right : Int) : Prop where
  left : eval scope r.left = .ok (.int left)
  right : eval scope r.right = .ok (.int right)

theorem expandStmt_generate {l : Library} {a : Syntax.Architecture} {path : Path} {b : Builder}
    {g : Syntax.Generate} {left right : Int} (h : b.scope.Bounds g.range left right) :
    expandStmt l a path b (.generate g) =
      ((indices left g.range.direction right).foldlM (expandRound l a path g b.nextOrdinal) b).map
        fun done => { done with nextOrdinal := b.nextOrdinal + Syntax.processCount g.body } := by
  obtain ⟨label, var, range, decls, body, span⟩ := g
  have hleft : generateBound b.scope label range.left = .ok left := evalInt_of_int h.left _
  have hright : generateBound b.scope label range.right = .ok right := evalInt_of_int h.right _
  rw [expandStmt, hleft, hright]
  exact (Result.bind_ok _ _).trans (congrArg (Except.map _) (foldIndices_eq_foldlM ..))

/-! ### Widths -/

/-- The types of numbers. -/
def numberMarks : List String := ["integer", "natural", "positive"]

theorem isIntegerMark_iff {mark : String} : isIntegerMark mark = true ↔ mark ∈ numberMarks := by
  simp only [isIntegerMark, numberMarks, Bool.or_eq_true, beq_iff_eq, List.mem_cons, List.not_mem_nil,
    or_false, or_assoc]

section
variable {scope : Scope} {t : Syntax.Subtype} {r : Syntax.Range} {left right : Int}

theorem width_of_number (hmark : t.mark ∈ numberMarks)
    (h : ∀ r, t.range = some r → ∃ left right, scope.Bounds r left right) :
    width scope t = .ok integerWidth := by
  have hmark' := isIntegerMark_iff.2 hmark
  cases hr : t.range with
  | none => simp only [width, hr, if_pos hmark']
  | some r =>
    obtain ⟨left, right, hbounds⟩ := h r hr
    have hleft : widthBound scope r.left = .ok left := evalInt_of_int hbounds.left _
    have hright : widthBound scope r.right = .ok right := evalInt_of_int hbounds.right _
    simp only [width, hr, hleft, hright, if_pos hmark']
    rfl

theorem width_of_range (hmark : t.mark ∉ numberMarks) (hr : t.range = some r)
    (h : scope.Bounds r left right) : width scope t =
      if (r.direction.numbers left right).ncard ≤ maxWidth then .ok (r.direction.numbers left right).ncard
      else .error (.constant (.tooWide (r.direction.numbers left right).ncard) t.span) := by
  have hmark' : ¬ isIntegerMark t.mark = true := fun h => hmark (isIntegerMark_iff.1 h)
  have hleft : widthBound scope r.left = .ok left := evalInt_of_int h.left _
  have hright : widthBound scope r.right = .ok right := evalInt_of_int h.right _
  simp only [width, hr, hleft, hright, ← rangeLength_eq_ncard]
  exact if_neg hmark'

theorem width_eq_error_iff (hmark : t.mark ∉ numberMarks) (hr : t.range = some r)
    (h : scope.Bounds r left right) : (∃ e, width scope t = .error e ∧ e.code = .error 210) ↔
      maxWidth < (r.direction.numbers left right).ncard := by
  rw [width_of_range hmark hr h]
  split_ifs with hfits
  · simp [Nat.not_lt_of_le hfits]
  · simp [Nat.lt_of_not_le hfits, DesignError.code]

/-- Fewer bits than are counted up from `width` on do not suffice, and if the count suffices, then so do
the bits that are found. -/
theorem enumerationWidth_spec (literals n width : Nat) :
    width ≤ enumerationWidth literals n width ∧
      (∀ w, width ≤ w → literals ≤ Nat.pow 2 w → enumerationWidth literals n width ≤ w) ∧
      (literals ≤ Nat.pow 2 (width + n) → literals ≤ Nat.pow 2 (enumerationWidth literals n width)) := by
  induction n generalizing width with
  | zero => exact ⟨Nat.le_refl _, fun w hw _ => hw, id⟩
  | succ n ih =>
    rw [enumerationWidth]
    split_ifs with hlt
    · obtain ⟨hle, hleast, hfound⟩ := ih (width + 1)
      refine ⟨by omega, fun w hw hliterals => hleast w ?_ hliterals, fun hliterals => hfound ?_⟩
      · rcases Nat.eq_or_lt_of_le hw with rfl | hw
        · exact absurd hliterals (Nat.not_le_of_lt hlt)
        · exact hw
      · rwa [Nat.add_right_comm]
    · exact ⟨Nat.le_refl _, fun w hw _ => hw, fun _ => Nat.le_of_not_lt hlt⟩

theorem isLeast_bitsFor {n : Nat} (hn : n < 4294967296) :
    IsLeast {w | 1 ≤ w ∧ n ≤ Nat.pow 2 w} (bitsFor n) := by
  obtain ⟨hle, hleast, hfound⟩ := enumerationWidth_spec n 31 1
  exact ⟨⟨hle, hfound hn.le⟩, fun w hw => hleast w hw.1 hw.2⟩

theorem width_of_enumeration {n : Nat} (hmark : t.mark ∉ numberMarks) (hr : t.range = none)
    (hn : scope.find? t.mark = some (.enumeration n)) : width scope t = .ok (bitsFor n) := by
  have hmark' : ¬ isIntegerMark t.mark = true := fun h => hmark (isIntegerMark_iff.1 h)
  rw [width, hr]
  simp only [if_neg hmark', hn]

end

/-! ### Loops and widths -/

/-- Where the bounds of a range are numbers, a loop over it is built for the numbers of the range, one
after the other and none of them outside of a word if the bounds are words, and not at all if there are
none. A signal has as many bits as its range has numbers, unless there are more than `maxWidth` of them or
it is of a type of numbers, and a signal of an enumeration has as many as its literals need. -/
theorem ranges_exact (scope : Scope) :
    (∀ (g : Syntax.Generate) (left right : Int), scope.Bounds g.range left right →
      ∃ ks, g.range.direction.Lists left right ks ∧
        (∀ l a path (b : Builder), b.scope = scope → expandStmt l a path b (.generate g) =
          (ks.foldlM (expandRound l a path g b.nextOrdinal) b).map
            fun done => { done with nextOrdinal := b.nextOrdinal + Syntax.processCount g.body }) ∧
        (g.range.direction.numbers left right = ∅ → ks = []) ∧
        (Word.fits left = true → Word.fits right = true →
          ks.length ≤ 18446744073709551616 ∧ ∀ (r : Nat) k, ks[r]? = some k →
            Word.fits k = true ∧ k = Word.wrapped (roundIndex g.range.direction left r))) ∧
    (∀ t : Syntax.Subtype, t.mark ∈ numberMarks →
      (∀ r, t.range = some r → ∃ left right, scope.Bounds r left right) → width scope t = .ok 32) ∧
    (∀ (t : Syntax.Subtype) (r : Syntax.Range) (left right : Int), t.mark ∉ numberMarks →
      t.range = some r → scope.Bounds r left right →
      ((r.direction.numbers left right).ncard ≤ 4294967295 →
        width scope t = .ok (r.direction.numbers left right).ncard) ∧
      ((∃ e, width scope t = .error e ∧ e.code = .error 210) ↔
        4294967295 < (r.direction.numbers left right).ncard)) ∧
    ∀ (t : Syntax.Subtype) (n : Nat), t.mark ∉ numberMarks → t.range = none →
      scope.find? t.mark = some (.enumeration n) → n < 4294967296 →
      ∃ w, width scope t = .ok w ∧ IsLeast {w | 1 ≤ w ∧ n ≤ Nat.pow 2 w} w := by
  refine ⟨fun g left right h => ?_, fun t hmark h => width_of_number hmark h,
    fun t r left right hmark hr h => ⟨fun hcard => ?_, width_eq_error_iff hmark hr h⟩,
    fun t n hmark hr hn hlt => ⟨_, width_of_enumeration hmark hr hn, isLeast_bitsFor hlt⟩⟩
  · have hlists := lists_indices left g.range.direction right
    refine ⟨_, hlists, fun l a path b hscope => expandStmt_generate (hscope ▸ h),
      fun hempty => ?_,
      fun hleft hright => ⟨?_, fun r k hk => ?_⟩⟩
    · refine List.eq_nil_iff_forall_not_mem.2 fun k hk => ?_
      rw [hlists.mem, hempty] at hk
      exact absurd hk (Set.notMem_empty k)
    · rw [Word.fits_iff] at hleft hright
      rw [length_indices]
      cases g.range.direction <;> simp only [rangeLength] <;> omega
    · have hfits := fits_of_mem_numbers hleft hright ((hlists.mem k).1 (List.mem_of_getElem? hk))
      rw [← eq_roundIndex_of_getElem? hk]
      exact ⟨hfits, (Word.wrapped_of_fits hfits).symm⟩
  · rw [width_of_range hmark hr h, if_pos (show _ ≤ maxWidth from hcard)]

/-- A loop over the last two words, a range of all words, which has too many numbers for the bits of a
signal, and a type of five literals. -/
theorem ranges_exact_extremes :
    let last : Syntax.Range := ⟨.int Word.greatest .nowhere, .downto, .int (Word.greatest - 1) .nowhere⟩
    let all : Syntax.Range := ⟨.int Word.least .nowhere, .to, .int Word.greatest .nowhere⟩
    let loop : Syntax.Generate := ⟨"g", "i", last, [], [], .nowhere⟩
    let types : Scope := ⟨[("state", .enumeration 5)], []⟩
    (∃ ks, RangeDirection.downto.Lists Word.greatest (Word.greatest - 1) ks ∧
      (∀ l a path (b : Builder), b.scope = types → expandStmt l a path b (.generate loop) =
        (ks.foldlM (expandRound l a path loop b.nextOrdinal) b).map
          fun done => { done with nextOrdinal := b.nextOrdinal + 0 }) ∧
      ∀ (r : Nat) k, ks[r]? = some k → Word.fits k = true) ∧
    (∃ e, width types ⟨"bit_vector", some all, .nowhere⟩ = .error e ∧ e.code = .error 210) ∧
    ∃ w, width types ⟨"state", none, .nowhere⟩ = .ok w ∧ IsLeast {w | 1 ≤ w ∧ 5 ≤ Nat.pow 2 w} w := by
  intro last all loop types
  obtain ⟨hloop, -, hrange, henumeration⟩ := ranges_exact types
  obtain ⟨ks, hlists, hbuild, -, hwords⟩ :=
    hloop loop Word.greatest (Word.greatest - 1) ⟨rfl, rfl⟩
  have hcard : (RangeDirection.to.numbers Word.least Word.greatest).ncard = 18446744073709551616 := by
    rw [← rangeLength_eq_ncard]
    decide
  refine ⟨⟨ks, hlists, hbuild, fun r k hk => ((hwords (by decide) (by decide)).2 r k hk).1⟩, ?_, ?_⟩
  · have hmark : "bit_vector" ∉ numberMarks := by decide
    refine (hrange _ all Word.least Word.greatest hmark rfl ⟨rfl, rfl⟩).2.2 ?_
    rw [hcard]
    decide
  · exact henumeration _ 5 (by decide) rfl rfl (by decide)

end HdlLint.Design
