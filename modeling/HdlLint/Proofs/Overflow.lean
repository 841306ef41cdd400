import HdlLint.Proofs.ExactValues

/-!
# Overflow is reported for results that are no words

`eval_overflow_iff`: the evaluation of an expression ends with an overflow just if it comes to an operator
whose exact result is no word, or to the remainder of the least number by minus one. This remainder is
zero; it is the one result that is refused although it is a word, as the quotient that belongs to it is
none. So overflow is reported for results that are no words only (`OverflowsExactly`) if and only if no
such remainder is taken on the way.
-/

namespace HdlLint.Design
open Syntax (BinaryOp UnaryOp)

namespace Application

/-- The exact result is a number, but no word. An exponent that is too great is a fault of its own. -/
def Exceeds (a : Application) : Prop :=
  ∃ z, a.Gives (.int z) ∧ Word.fits z = false ∧
    ∀ x y, a = .binary .pow x (.int y) → y ≤ Word.maxExponent

/-- The remainder of the least number by minus one. -/
def IsLeastRemainder (a : Application) : Prop :=
  ∃ op, (op = .rem ∨ op = .mod) ∧ a = .binary op (.int Word.least) (.int (-1))

section
variable {a b : Value}

theorem map_int_eq_error {r : Except EvalFault Int} {fault : EvalFault} :
    r.map Value.int = .error fault ↔ r = .error fault := by
  cases r with
  | ok n => simp [Except.map]
  | error f => simp [Except.map]

theorem gives_int_iff {op : BinaryOp} {x y z : Int} :
    Gives (.binary op (.int x) (.int y)) (.int z) ↔ Word.Computes op x y z := by
  constructor
  · rintro (_ | _ | _ | _ | h)
    exact h
  · exact .arithmetic

theorem exceeds_binary_iff {op : BinaryOp} {x y : Int} :
    Exceeds (.binary op (.int x) (.int y)) ↔ Word.Exceeds op x y := by
  refine exists_congr fun z => and_congr gives_int_iff (and_congr_right fun _ => ?_)
  constructor
  · rintro h rfl
    exact h _ _ rfl
  · rintro h _ _ ⟨⟩
    exact h rfl

/-- A sign can only lead out of the words at the least number. -/
theorem run_unary_eq_overflow {op : UnaryOp} (ha : a.IsWord) :
    Value.unary op a = .error .overflow ↔ Exceeds (.unary op a) := by
  have hchecked : ∀ z, Gives (.unary op a) (.int z) →
      ((Word.checked z).map Value.int = .error .overflow ↔ Exceeds (.unary op a)) := by
    intro z hz
    rw [map_int_eq_error, Word.checked_eq_error, eq_self_iff_true, true_and]
    constructor
    · intro hover
      exact ⟨z, hz, hover, nofun⟩
    · rintro ⟨z', hz', hover, -⟩
      rwa [Value.int.inj (hz.unique hz')]
  have hnone : (∀ z, ¬ Gives (.unary op a) (.int z)) → ¬ Exceeds (.unary op a) :=
    fun h ⟨z, hz, _⟩ => h z hz
  cases op with
  | neg =>
    cases a with
    | int n => exact hchecked _ .neg
    | _ => exact iff_of_false nofun (hnone nofun)
  | abs =>
    cases a with
    | int n =>
      rw [Value.unary, ← Int.abs_eq_natAbs]
      exact hchecked _ .abs
    | _ => exact iff_of_false nofun (hnone nofun)
  | pos =>
    cases a with
    | int n =>
      refine iff_of_false nofun ?_
      rintro ⟨z, hz, hover, -⟩
      cases hz
      have hfits : Word.fits n = true := ha
      rw [hfits] at hover
      cases hover
    | _ => exact iff_of_false nofun (hnone nofun)
  | not => cases a <;> exact iff_of_false nofun (hnone nofun)

/-- Only the arithmetic of numbers overflows. -/
theorem run_binary_eq_overflow {op : BinaryOp} : Value.binary op a b = .error .overflow ↔
    ∃ x y, a = .int x ∧ b = .int y ∧ Word.arithmetic op x y = some (.error .overflow) := by
  constructor
  · intro h
    unfold Value.binary at h
    split at h
    · cases h
    split at h
    · next r hr =>
      subst h
      unfold Value.binaryKnown at hr
      split at hr
      · next x y _ =>
        unfold Value.binaryInt at hr
        split at hr
        · next r harith =>
          rw [Option.some.injEq, map_int_eq_error] at hr
          exact ⟨x, y, rfl, rfl, hr ▸ harith⟩
        · obtain ⟨c, -, hc⟩ := Option.map_eq_some_iff.1 hr
          cases hc
      · obtain ⟨c, -, hc⟩ := Option.map_eq_some_iff.1 hr
        cases hc
      · cases hr
    · split_ifs at h
      cases h
  · rintro ⟨x, y, rfl, rfl, h⟩
    have hknown : Value.binaryKnown op (.int x) (.int y) = some (.error .overflow) := by
      rw [Value.binaryKnown, Value.binaryInt, h]
      rfl
    rw [Value.binary, hknown]
    rfl

end

theorem run_eq_overflow {a : Application} (ha : a.InWords) :
    a.run = .error .overflow ↔ a.Exceeds ∨ a.IsLeastRemainder := by
  cases a with
  | unary op a =>
    have hleast : ¬ IsLeastRemainder (.unary op a) := by
      rintro ⟨_, -, h⟩
      cases h
    rw [or_iff_left hleast]
    exact run_unary_eq_overflow ha
  | binary op a b =>
    refine run_binary_eq_overflow.trans ⟨?_, ?_⟩
    · rintro ⟨x, y, rfl, rfl, h⟩
      rcases (Word.arithmetic_eq_overflow ha.1 ha.2).1 h with hexceeds | ⟨hop, rfl, rfl⟩
      · exact .inl (exceeds_binary_iff.2 hexceeds)
      · exact .inr ⟨op, hop, rfl⟩
    · rintro (hexceeds | ⟨_, hop, ⟨⟩⟩)
      · obtain ⟨z, hz, -⟩ := id hexceeds
        cases hz with
        | arithmetic =>
          refine ⟨_, _, rfl, rfl, (Word.arithmetic_eq_overflow ha.1 ha.2).2 (.inl ?_)⟩
          exact exceeds_binary_iff.1 hexceeds
      · exact ⟨_, _, rfl, rfl, (Word.arithmetic_eq_overflow rfl rfl).2 (.inr ⟨hop, rfl, rfl⟩)⟩

/-- The remainder that is refused is zero. -/
theorem IsLeastRemainder.gives {a : Application} (h : a.IsLeastRemainder) : a.Gives (.int 0) := by
  obtain ⟨op, rfl | rfl, rfl⟩ := h
  · exact .arithmetic (.rem (q := -Word.least) ⟨by decide, by decide, by decide⟩)
  · exact .arithmetic (.mod (q := -Word.least) ⟨by decide, by decide, by decide⟩)

end Application

section
variable {scope : Scope} {e d : Syntax.Expr} {a : Application}

theorem Applies.inWords (h : Applies scope d a) (hscope : scope.InWords) (hd : d.InWords) : a.InWords := by
  cases h with
  | @unary op e span a he =>
    have hnumbers : e.InWords := hd
    exact (eval_denotes hscope hnumbers he).1
  | binary hl hr =>
    have hlr := List.forall_mem_append.1 hd
    exact ⟨(eval_denotes hscope hlr.1 hl).1, (eval_denotes hscope hlr.2 hr).1⟩

/-- Where an operator on the way fails for want of space, its exact result is no word. -/
def OverflowsExactly (scope : Scope) (e : Syntax.Expr) : Prop :=
  ∀ d a, ComesTo scope e d → Applies scope d a → a.run = .error .overflow →
    ∃ z, a.Gives (.int z) ∧ Word.fits z = false

theorem atFault_constant {fault : EvalFault} {span : Span} :
    AtFault scope d (.constant fault span) ↔
      ∃ a, Applies scope d a ∧ d.span = span ∧ a.run = .error fault := by
  constructor
  · intro h
    cases h with
    | operator ha hrun => exact ⟨_, ha, rfl, hrun⟩
  · rintro ⟨a, ha, rfl, hrun⟩
    exact .operator ha hrun

/-- Overflow is reported for results that are no words, and for the remainder of the least number by minus
one. Without such a remainder it is reported for nothing else. -/
theorem eval_overflow_iff (hscope : scope.InWords) (he : e.InWords) :
    (∀ span, eval scope e = .error (.constant .overflow span) ↔
      ∃ d a, ComesTo scope e d ∧ Applies scope d a ∧ d.span = span ∧
        (a.Exceeds ∨ a.IsLeastRemainder)) ∧
    (OverflowsExactly scope e ↔
      ∀ d a, ComesTo scope e d → Applies scope d a → ¬ a.IsLeastRemainder) := by
  have hrun : ∀ {d a}, ComesTo scope e d → Applies scope d a →
      (a.run = .error .overflow ↔ a.Exceeds ∨ a.IsLeastRemainder) := fun hd ha =>
    Application.run_eq_overflow (ha.inWords hscope (hd.inWords he))
  refine ⟨fun span => ?_, fun h d a hd ha hleast => ?_, fun h d a hd ha hover => ?_⟩
  · simp only [eval_eq_error_iff, atFault_constant]
    constructor
    · rintro ⟨d, hd, a, ha, hspan, hover⟩
      exact ⟨d, a, hd, ha, hspan, (hrun hd ha).1 hover⟩
    · rintro ⟨d, a, hd, ha, hspan, hover⟩
      exact ⟨d, hd, a, ha, hspan, (hrun hd ha).2 hover⟩
  · obtain ⟨z, hz, hover⟩ := h d a hd ha ((hrun hd ha).2 (.inr hleast))
    cases hleast.gives.unique hz
    cases hover
  · obtain ⟨z, hz, hover, -⟩ := ((hrun hd ha).1 hover).resolve_right (h d a hd ha)
    exact ⟨z, hz, hover⟩

end

/-- `9223372036854775807 + n` -/
def pastGreatest : Syntax.Expr :=
  .binary .add (.int 9223372036854775807 ⟨0, 0, 19⟩) (.name ⟨"n", ⟨0, 22, 23⟩⟩) ⟨0, 0, 23⟩

theorem eval_overflow_pastGreatest :
    eval ⟨[("n", .constant (.int 1))], []⟩ pastGreatest = .error (.constant .overflow ⟨0, 0, 23⟩) ∧
      OverflowsExactly ⟨[("n", .constant (.int 1))], []⟩ pastGreatest := by
  have hscope : Scope.InWords ⟨[("n", .constant (.int 1))], []⟩ := by
    intro name v hv
    cases List.mem_singleton.1 hv
    rfl
  have he : pastGreatest.InWords := by
    unfold Syntax.Expr.InWords
    decide
  refine ⟨by decide, (eval_overflow_iff hscope he).2.2 ?_⟩
  rintro d a hd ha ⟨op, hop, rfl⟩
  -- the only operator on the way is the sum
  rcases hd with _ | _ | h | ⟨-, h⟩
  · cases ha
    rcases hop with h | h <;> cases h
  · cases h
    cases ha
  · cases h
    cases ha

/-- `(-9223372036854775807 - 1) rem -1` -/
def leastRemainder : Syntax.Expr :=
  .binary .rem
    (.binary .sub (.unary .neg (.int 9223372036854775807 ⟨0, 2, 21⟩) ⟨0, 1, 21⟩) (.int 1 ⟨0, 24, 25⟩)
      ⟨0, 1, 25⟩)
    (.unary .neg (.int 1 ⟨0, 33, 34⟩) ⟨0, 32, 34⟩) ⟨0, 1, 34⟩

/-- Zero is refused as too great. -/
theorem eval_overflow_leastRemainder :
    eval .empty leastRemainder = .error (.constant .overflow ⟨0, 1, 34⟩) ∧
      Application.Gives (.binary .rem (.int Word.least) (.int (-1))) (.int 0) ∧
      ¬ OverflowsExactly .empty leastRemainder := by
  have hgives : Application.Gives (.binary .rem (.int Word.least) (.int (-1))) (.int 0) :=
    Application.IsLeastRemainder.gives ⟨.rem, .inl rfl, rfl⟩
  refine ⟨by decide, hgives, fun h => ?_⟩
  have happlies : Applies .empty leastRemainder (.binary .rem (.int Word.least) (.int (-1))) :=
    .binary (by decide) (by decide)
  obtain ⟨z, hz, hover⟩ := h _ _ .refl happlies (by decide)
  cases hgives.unique hz
  cases hover

end HdlLint.Design
