import Mathlib.Algebra.Order.Ring.Int
import Mathlib.Tactic.Linarith
import Mathlib.Tactic.Ring
import HdlLint.Design.Eval

/-!
# Exact arithmetic

`Computes` is the arithmetic of numbers of any size: a quotient comes with a remainder that is less than
the divisor and has the sign of the dividend, and `mod` is the remainder with the sign of the divisor.
What the arithmetic of words gives is what `Computes` gives (`computes_of_arithmetic`), and it gives
nothing for want of space only where the exact result is no word, or where the least number would have to
be divided by minus one for its remainder (`arithmetic_eq_overflow`).

A power is taken by squaring. A square that does not fit is a factor of the power, and the power could
only fit in spite of it if it were the least number, whose absolute value is no square.
-/

namespace HdlLint.Design.Word

/-! ### Words -/

theorem fits_iff {n : Int} : fits n = true ↔ -9223372036854775808 ≤ n ∧ n ≤ 9223372036854775807 := by
  rw [fits, least, greatest, Bool.and_eq_true, decide_eq_true_iff, decide_eq_true_iff]

theorem not_fits_iff {n : Int} : fits n = false ↔ n < -9223372036854775808 ∨ 9223372036854775807 < n := by
  rw [← Bool.not_eq_true, fits_iff]
  omega

theorem checked_of_fits {n : Int} (h : fits n = true) : checked n = .ok n := if_pos h

theorem checked_of_not_fits {n : Int} (h : fits n = false) : checked n = .error .overflow := by
  rw [checked, h]
  rfl

theorem checked_eq_ok {n z : Int} : checked n = .ok z ↔ n = z ∧ fits z = true := by
  cases h : fits n with
  | true =>
    rw [checked_of_fits h]
    constructor
    · intro heq
      cases heq
      exact ⟨rfl, h⟩
    · rintro ⟨rfl, -⟩
      rfl
  | false =>
    rw [checked_of_not_fits h]
    constructor
    · intro heq
      cases heq
    · rintro ⟨rfl, h'⟩
      rw [h] at h'
      cases h'

theorem checked_eq_error {n : Int} {fault : EvalFault} :
    checked n = .error fault ↔ fault = .overflow ∧ fits n = false := by
  cases h : fits n with
  | true => simp [checked_of_fits h]
  | false => simp [checked_of_not_fits h, eq_comm]

theorem wrapped_of_fits {n : Int} (h : fits n = true) : wrapped n = n := by
  rw [fits_iff] at h
  rw [wrapped, Int.bmod_def]
  omega

/-! ### Division -/

/-- `x` divided by `y` is `q`, and what remains is `r`, which is zero or has the sign of `s`. -/
structure IsDivision (x y s q r : Int) : Prop where
  eq : x = y * q + r
  lt : r.natAbs < y.natAbs
  sign : r ≠ 0 → (r < 0 ↔ s < 0)

namespace IsDivision
variable {x y s q q' r r' : Int}

theorem ne_zero (h : IsDivision x y s q r) : y ≠ 0 := by
  have := h.lt
  omega

theorem unique (h : IsDivision x y s q r) (h' : IsDivision x y s q' r') : q = q' ∧ r = r' := by
  have hlt := h.lt
  have hlt' := h'.lt
  have hsign := h.sign
  have hsign' := h'.sign
  have hdiff : y * (q - q') = r' - r := by
    have := h.eq.symm.trans h'.eq
    rw [Int.mul_sub]
    omega
  -- two remainders of one sign differ by less than the divisor
  have habs : (y * (q - q')).natAbs < y.natAbs := by
    rw [hdiff]
    omega
  have hq : q - q' = 0 := by
    rw [Int.natAbs_mul] at habs
    by_contra hne
    have hpos : 1 ≤ (q - q').natAbs := by omega
    exact absurd habs (Nat.not_lt.2 (Nat.le_mul_of_pos_right _ hpos))
  rw [hq, Int.mul_zero] at hdiff
  omega

theorem fits (h : IsDivision x y s q r) (hy : Word.fits y = true) : Word.fits r = true := by
  have := h.lt
  rw [fits_iff] at hy ⊢
  omega

end IsDivision

theorem isDivision_tdiv {y : Int} (x : Int) (hy : y ≠ 0) : IsDivision x y x (x.tdiv y) (x.tmod y) := by
  refine ⟨(Int.mul_tdiv_add_tmod x y).symm, ?_, fun hr => ?_⟩
  · rw [Int.natAbs_tmod]
    exact Nat.mod_lt _ (Int.natAbs_pos.2 hy)
  · rcases Int.lt_or_le x 0 with hx | hx
    · have := Int.tmod_nonneg y (Int.neg_nonneg_of_nonpos (Int.le_of_lt hx))
      rw [Int.neg_tmod] at this
      omega
    · have := Int.tmod_nonneg y hx
      omega

/-- The only sum that is not checked. -/
theorem fits_unchecked {x y : Int} (hy : y ≠ 0) (hfits : fits y = true)
    (hsign : ¬ (x.tmod y < 0 ↔ y < 0)) : fits (x.tmod y + y) = true := by
  have hlt := (isDivision_tdiv x hy).lt
  rw [fits_iff] at hfits ⊢
  omega

theorem isDivision_modulo {x y : Int} (hy : y ≠ 0) (hfits : fits y = true) :
    ∃ q, IsDivision x y y q (modulo x y) := by
  have hdiv := isDivision_tdiv x hy
  have hlt := hdiv.lt
  unfold modulo
  dsimp only
  split
  · next h =>
    refine ⟨x.tdiv y - 1, ?_, ?_, ?_⟩ <;> rw [wrapped_of_fits (fits_unchecked hy hfits h.2)]
    · rw [Int.mul_sub, Int.mul_one]
      have := hdiv.eq
      omega
    · omega
    · omega
  · next h =>
    refine ⟨x.tdiv y, hdiv.eq, hlt, fun hr => ?_⟩
    by_contra hne
    exact h ⟨hr, hne⟩

theorem fits_least_tdiv {y : Int} (hne : y ≠ -1) : fits (least.tdiv y) = true := by
  have hleast : least.natAbs = 9223372036854775808 := rfl
  rw [fits_iff]
  rcases Int.lt_or_le y 0 with hneg | hnonneg
  · -- the divisor is less than minus one, so the quotient is at most half as great
    have hhalf : (least.tdiv y).natAbs ≤ least.natAbs / 2 := by
      rw [Int.natAbs_tdiv]
      exact Nat.div_le_div_left (by omega) (by decide)
    omega
  · have habs := Int.natAbs_tdiv_le_natAbs least y
    have hsign : 0 ≤ (-least).tdiv y := Int.tdiv_nonneg (by decide) hnonneg
    rw [Int.neg_tdiv] at hsign
    omega

/-- The quotient of two words is a word, the least one by minus one apart. -/
theorem fits_tdiv {x y : Int} (hx : fits x = true) : fits (x.tdiv y) = false ↔ x = least ∧ y = -1 := by
  constructor
  · intro h
    have habs := Int.natAbs_tdiv_le_natAbs x y
    rw [fits_iff] at hx
    obtain rfl : x = least := by
      rw [not_fits_iff] at h
      unfold least
      omega
    refine ⟨rfl, ?_⟩
    by_contra hne
    rw [fits_least_tdiv hne] at h
    cases h
  · rintro ⟨rfl, rfl⟩
    rfl

/-! ### Powers -/

theorem square_ne (b : Nat) : b * b ≠ 9223372036854775808 := by
  intro h
  rcases Nat.lt_or_ge b 3037000500 with hb | hb
  · have := Nat.mul_le_mul (Nat.le_of_lt_succ hb) (Nat.le_of_lt_succ hb)
    omega
  · have := Nat.mul_le_mul hb hb
    omega

theorem not_fits_mul {m c : Int} (hm : fits m = false) (hc : 1 ≤ c) : fits (m * c) = false := by
  rw [not_fits_iff] at hm ⊢
  rcases hm with hm | hm
  · left; nlinarith
  · right; nlinarith

/-- A multiple of a square that does not fit does not fit, either, be it negative. -/
theorem not_fits_mul_square {a b c : Int} (hb : fits (b * b) = false) (ha : a ≠ 0) (hc : 1 ≤ c) :
    fits (a * (b * b * c)) = false := by
  have hsq : 9223372036854775808 < b * b := by
    have hnat : ((b.natAbs * b.natAbs : Nat) : Int) = b * b := Int.natAbs_mul_self
    have hne := square_ne b.natAbs
    have hnonneg : 0 ≤ b * b := mul_self_nonneg b
    rw [not_fits_iff] at hb
    omega
  rw [not_fits_iff]
  have hbc : 9223372036854775808 < b * b * c := by nlinarith
  rcases Int.lt_or_gt_of_ne ha with ha | ha
  · left; nlinarith
  · right; nlinarith

theorem one_le_square {base : Int} (h : base ≠ 0) (n : Nat) : 1 ≤ (base * base) ^ n :=
  Int.add_one_le_of_lt (pow_pos (mul_self_pos.2 h) n)

/-- The step from a power of the base to a power of its square. -/
theorem powerFrom_square {n : Nat} (hn : n ≠ 0) {acc base : Int} (hzero : acc = 0 → base = 0)
    (ih : powerFrom acc (base * base) n = checked (acc * (base * base) ^ n)) :
    ((checked (base * base)).bind fun square => powerFrom acc square n) =
      checked (acc * (base * base) ^ n) := by
  cases hsq : fits (base * base) with
  | true =>
    rw [checked_of_fits hsq]
    exact ih
  | false =>
    have hbase : base ≠ 0 := by
      rintro rfl
      cases hsq
    obtain ⟨m, rfl⟩ := Nat.exists_eq_succ_of_ne_zero hn
    have hover : fits (acc * (base * base) ^ (m + 1)) = false := by
      rw [pow_succ']
      exact not_fits_mul_square hsq (fun h => hbase (hzero h)) (one_le_square hbase m)
    rw [checked_of_not_fits hsq, checked_of_not_fits hover]
    rfl

/-- Once zero, a product stays zero, and so must the base be, lest a square overflows in vain. -/
theorem powerFrom_eq (n : Nat) {acc base : Int} (hacc : fits acc = true) (hzero : acc = 0 → base = 0) :
    powerFrom acc base n = checked (acc * base ^ n) := by
  induction n using Nat.strongRecOn generalizing acc base with
  | ind n ih =>
    have hsquare : base * base = base ^ 2 := (pow_two base).symm
    rw [powerFrom]
    split_ifs with h0 h1 heven
    · rw [h0, pow_zero, mul_one, checked_of_fits hacc]
    · rw [h1, pow_one]
    · have hpow : acc * base ^ n = acc * (base * base) ^ (n / 2) := by
        rw [hsquare, ← pow_mul, Nat.mul_div_cancel' (Nat.dvd_of_mod_eq_zero heven)]
      rw [hpow]
      refine powerFrom_square (by omega) hzero (ih (n / 2) (by omega) hacc fun h => ?_)
      rw [hzero h, mul_zero]
    · have hpow : acc * base ^ n = acc * base * (base * base) ^ (n / 2) := by
        have hn : n = 2 * (n / 2) + 1 := by omega
        rw [hsquare, ← pow_mul, mul_assoc, ← pow_succ', ← hn]
      rw [hpow]
      cases hmul : fits (acc * base) with
      | true =>
        have hbase : acc * base = 0 → base = 0 := fun h => (mul_eq_zero.1 h).elim hzero id
        rw [checked_of_fits hmul]
        refine powerFrom_square (by omega) hbase (ih (n / 2) (by omega) hmul fun h => ?_)
        rw [hbase h, mul_zero]
      | false =>
        have hbase : base ≠ 0 := by
          rintro rfl
          rw [mul_zero] at hmul
          cases hmul
        rw [checked_of_not_fits hmul, checked_of_not_fits (not_fits_mul hmul (one_le_square hbase _))]
        rfl

theorem power_eq (base : Int) (n : Nat) : power base n = checked (base ^ n) := by
  rw [power, powerFrom_eq n rfl (fun h => absurd h one_ne_zero), one_mul]

/-! ### Operators -/

/-- The arithmetic of numbers of any size. -/
inductive Computes : Syntax.BinaryOp → Int → Int → Int → Prop
  | add {x y : Int} : Computes .add x y (x + y)
  | sub {x y : Int} : Computes .sub x y (x - y)
  | mul {x y : Int} : Computes .mul x y (x * y)
  | div {x y q r : Int} : IsDivision x y x q r → Computes .div x y q
  | rem {x y q r : Int} : IsDivision x y x q r → Computes .rem x y r
  | mod {x y q r : Int} : IsDivision x y y q r → Computes .mod x y r
  | pow {x : Int} {n : Nat} : Computes .pow x n (x ^ n)

namespace Computes
variable {op : Syntax.BinaryOp} {x y z z' : Int}

theorem unique (h : Computes op x y z) (h' : Computes op x y z') : z = z' := by
  cases h with
  | add | sub | mul => cases h'; rfl
  | div h => cases h' with | div h' => exact (h.unique h').1
  | rem h => cases h' with | rem h' => exact (h.unique h').2
  | mod h => cases h' with | mod h' => exact (h.unique h').2
  | pow => cases h'; rfl

theorem div_iff : Computes .div x y z ↔ y ≠ 0 ∧ x.tdiv y = z := by
  constructor
  · rintro (_ | _ | _ | h)
    exact ⟨h.ne_zero, ((isDivision_tdiv x h.ne_zero).unique h).1⟩
  · rintro ⟨hy, rfl⟩
    exact .div (isDivision_tdiv x hy)

theorem pow_iff : Computes .pow x y z ↔ 0 ≤ y ∧ x ^ y.toNat = z := by
  constructor
  · rintro ⟨⟩
    exact ⟨Int.natCast_nonneg _, rfl⟩
  · rintro ⟨hy, rfl⟩
    obtain ⟨n, rfl⟩ := Int.eq_ofNat_of_zero_le hy
    exact .pow

end Computes

theorem computes_of_arithmetic {op : Syntax.BinaryOp} {x y z : Int} (hy : fits y = true)
    (h : arithmetic op x y = some (.ok z)) : Computes op x y z ∧ fits z = true := by
  cases op with
  | add =>
    obtain ⟨rfl, hz⟩ := checked_eq_ok.1 (Option.some.inj h)
    exact ⟨.add, hz⟩
  | sub =>
    obtain ⟨rfl, hz⟩ := checked_eq_ok.1 (Option.some.inj h)
    exact ⟨.sub, hz⟩
  | mul =>
    obtain ⟨rfl, hz⟩ := checked_eq_ok.1 (Option.some.inj h)
    exact ⟨.mul, hz⟩
  | div =>
    have h := Option.some.inj h
    split_ifs at h with h0
    obtain ⟨rfl, hz⟩ := checked_eq_ok.1 h
    exact ⟨Computes.div_iff.2 ⟨h0, rfl⟩, hz⟩
  | rem =>
    have h := Option.some.inj h
    split_ifs at h with h0
    obtain rfl := Except.ok.inj h
    exact ⟨.rem (isDivision_tdiv x h0), (isDivision_tdiv x h0).fits hy⟩
  | mod =>
    have h := Option.some.inj h
    split_ifs at h with h0
    obtain rfl := Except.ok.inj h
    obtain ⟨q, hq⟩ := isDivision_modulo (x := x) h0 hy
    exact ⟨.mod hq, hq.fits hy⟩
  | pow =>
    have h := Option.some.inj h
    split_ifs at h with h0
    rw [power_eq] at h
    obtain ⟨rfl, hz⟩ := checked_eq_ok.1 h
    exact ⟨Computes.pow_iff.2 ⟨h0.1, rfl⟩, hz⟩
  | _ => cases h

/-- The exact result is no word. An exponent that is too great is a fault of its own. -/
def Exceeds (op : Syntax.BinaryOp) (x y : Int) : Prop :=
  ∃ z, Computes op x y z ∧ fits z = false ∧ (op = .pow → y ≤ maxExponent)

/-- The remainder of the least number by minus one. -/
def IsLeastRemainder (op : Syntax.BinaryOp) (x y : Int) : Prop :=
  (op = .rem ∨ op = .mod) ∧ x = least ∧ y = -1

section
variable {op : Syntax.BinaryOp} {x y z : Int}

theorem exceeds_iff (h : Computes op x y z) (hpow : op = .pow → y ≤ maxExponent) :
    Exceeds op x y ↔ fits z = false := by
  constructor
  · rintro ⟨z', hz', hover, -⟩
    rwa [h.unique hz']
  · intro hover
    exact ⟨z, h, hover, hpow⟩

theorem not_exceeds_of_fits (h : ∀ z, Computes op x y z → fits z = true) : ¬ Exceeds op x y := by
  rintro ⟨z, hz, hover, -⟩
  rw [h z hz] at hover
  cases hover

theorem overflow_iff_of_checked (hrem : op ≠ .rem) (hmod : op ≠ .mod) (hpow : op = .pow → y ≤ maxExponent)
    (hz : Computes op x y z) :
    some (checked z) = some (.error .overflow) ↔ Exceeds op x y ∨ IsLeastRemainder op x y := by
  have hleast : ¬ IsLeastRemainder op x y := fun h => h.1.elim hrem hmod
  rw [Option.some_inj, checked_eq_error, exceeds_iff hz hpow]
  tauto

/-- A remainder always fits, so the one that is not taken is missed for its quotient. -/
theorem overflow_iff_of_remainder {r : Int} (hx : fits x = true) (hop : op = .rem ∨ op = .mod)
    (hfits : ∀ z, Computes op x y z → fits z = true) :
    some (if y = 0 then .error .divisionByZero
      else if fits (x.tdiv y) then .ok r else .error .overflow) = some (Except.error EvalFault.overflow) ↔
      Exceeds op x y ∨ IsLeastRemainder op x y := by
  rw [or_iff_right (not_exceeds_of_fits hfits), IsLeastRemainder, and_iff_right hop, Option.some_inj]
  by_cases h0 : y = 0
  · rw [if_pos h0]
    simp [h0]
  · rw [if_neg h0, ← fits_tdiv hx]
    cases fits (x.tdiv y) <;> simp

theorem arithmetic_eq_overflow (hx : fits x = true) (hy : fits y = true) :
    arithmetic op x y = some (.error .overflow) ↔ Exceeds op x y ∨ IsLeastRemainder op x y := by
  cases op with
  | add => exact overflow_iff_of_checked nofun nofun nofun .add
  | sub => exact overflow_iff_of_checked nofun nofun nofun .sub
  | mul => exact overflow_iff_of_checked nofun nofun nofun .mul
  | div =>
    rw [arithmetic]
    by_cases h0 : y = 0
    · rw [if_pos h0]
      simp [Exceeds, IsLeastRemainder, Computes.div_iff, h0]
    · rw [if_neg h0]
      exact overflow_iff_of_checked nofun nofun nofun (.div (isDivision_tdiv x h0))
  | rem =>
    exact overflow_iff_of_remainder hx (.inl rfl) fun z hz => by cases hz with | rem h => exact h.fits hy
  | mod =>
    exact overflow_iff_of_remainder hx (.inr rfl) fun z hz => by cases hz with | mod h => exact h.fits hy
  | pow =>
    rw [arithmetic]
    by_cases h0 : 0 ≤ y ∧ y ≤ maxExponent
    · rw [if_pos h0, power_eq]
      exact overflow_iff_of_checked nofun nofun (fun _ => h0.2) (Computes.pow_iff.2 ⟨h0.1, rfl⟩)
    · rw [if_neg h0]
      have : ¬ Exceeds .pow x y := by
        rintro ⟨z, hz, -, hle⟩
        exact h0 ⟨(Computes.pow_iff.1 hz).1, hle rfl⟩
      simp [this, IsLeastRemainder]
  | _ =>
    refine iff_of_false (fun h => by cases h) ?_
    rintro (⟨z, hz, -⟩ | ⟨hop | hop, -⟩)
    · cases hz
    · cases hop
    · cases hop

end

end HdlLint.Design.Word
