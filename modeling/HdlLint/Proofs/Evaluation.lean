import HdlLint.Design.Eval
import HdlLint.Proofs.Faults
import HdlLint.Proofs.NameUses

/-!
# The course of an evaluation

An expression is evaluated from left to right, up to its first fault. `ComesTo` leads to the parts that
are evaluated on the way: all that comes before them has a value. `eval_eq_error_iff`: an evaluation
ends with a fault if and only if it comes to a part that is at fault itself (`AtFault`), whose name stands
for nothing or for a signal, or whose operator has no result for the values of its operands.

The bounds of a slice are not evaluated, so no way leads into them.
-/

namespace HdlLint.Syntax

/-- The name that an expression is made of, or that stands before its parentheses. -/
def Expr.ownName? : Expr → Option NameUse
  | .name i => some ⟨i, .value⟩
  | .call f _ _ => some ⟨f, .callee⟩
  | .slice b _ _ _ _ => some ⟨b, .sliced⟩
  | .attribute b a _ => some ⟨b, .attributed a⟩
  | _ => none

end HdlLint.Syntax

namespace HdlLint.Design
open Syntax (BinaryOp UnaryOp)

/-- An operator with the values of its operands. -/
inductive Application where
  | unary (op : UnaryOp) (a : Value)
  | binary (op : BinaryOp) (a b : Value)

def Application.run : Application → Except EvalFault Value
  | .unary op a => Value.unary op a
  | .binary op a b => Value.binary op a b

/-- The expression is an operator, and its operands have these values. -/
inductive Applies (scope : Scope) : Syntax.Expr → Application → Prop
  | unary {op : UnaryOp} {e : Syntax.Expr} {span : Span} {a : Value} :
    eval scope e = .ok a → Applies scope (.unary op e span) (.unary op a)
  | binary {op : BinaryOp} {l r : Syntax.Expr} {span : Span} {a b : Value} :
    eval scope l = .ok a → eval scope r = .ok b → Applies scope (.binary op l r span) (.binary op a b)

/-- The fault is that of the expression itself and not that of a part of it. -/
inductive AtFault (scope : Scope) (e : Syntax.Expr) : DesignError → Prop
  | unknown {u : Syntax.NameUse} : e.ownName? = some u → ¬ scope.Allows u →
    AtFault scope e (.unresolvedGeneric u.ident.name u.ident.span)
  | signal {u : Syntax.NameUse} : e.ownName? = some u → scope.IsSignal u.ident →
    AtFault scope e (.notConstant u.ident.name u.ident.span)
  | operator {a : Application} {fault : EvalFault} : Applies scope e a → a.run = .error fault →
    AtFault scope e (.constant fault e.span)

/-- The evaluation of the first expression comes to the second one. -/
inductive ComesTo (scope : Scope) : Syntax.Expr → Syntax.Expr → Prop
  | refl {e : Syntax.Expr} : ComesTo scope e e
  | operand {op : UnaryOp} {e d : Syntax.Expr} {span : Span} :
    ComesTo scope e d → ComesTo scope (.unary op e span) d
  | left {op : BinaryOp} {l r d : Syntax.Expr} {span : Span} :
    ComesTo scope l d → ComesTo scope (.binary op l r span) d
  | right {op : BinaryOp} {l r d : Syntax.Expr} {span : Span} {a : Value} :
    eval scope l = .ok a → ComesTo scope r d → ComesTo scope (.binary op l r span) d
  | argument {f : Syntax.Ident} {before after : List Syntax.Expr} {e d : Syntax.Expr} {span : Span} :
    ¬ scope.IsSignal f → evalAll scope before = .ok () → ComesTo scope e d →
      ComesTo scope (.call f (before ++ e :: after) span) d
  | element {before after : List Syntax.Expr} {e d : Syntax.Expr} {span : Span} :
    evalAll scope before = .ok () → ComesTo scope e d →
      ComesTo scope (.aggregate (before ++ e :: after) span) d

section
variable {scope : Scope} {i : Syntax.Ident} {err : DesignError}

/-! ### Names -/

theorem constant?_of_isSignal (h : scope.IsSignal i) :
    constant? scope i = .error (.notConstant i.name i.span) := by
  obtain ⟨id, h⟩ := h
  rw [constant?, h]

theorem constant?_of_not_isSignal (h : ¬ scope.IsSignal i) :
    ∃ o, constant? scope i = .ok o ∧ (o = none ↔ scope.find? i.name = none) := by
  unfold constant?
  split
  · next v hv => exact ⟨some v, rfl, by simp [hv]⟩
  · next n hn => exact ⟨some .composite, rfl, by simp [hn]⟩
  · next id hid => exact absurd ⟨id, hid⟩ h
  · next hnone => exact ⟨none, rfl, by simp [hnone]⟩

theorem constant?_eq_error :
    constant? scope i = .error err ↔ scope.IsSignal i ∧ err = .notConstant i.name i.span := by
  by_cases h : scope.IsSignal i
  · simp [constant?_of_isSignal h, h, eq_comm]
  · obtain ⟨o, ho, -⟩ := constant?_of_not_isSignal h
    simp [ho, h]

theorem constant_eq_error : constant scope i = .error err ↔
    scope.IsSignal i ∧ err = .notConstant i.name i.span ∨
      scope.find? i.name = none ∧ err = .unresolvedGeneric i.name i.span := by
  rw [constant, Result.bind_eq_error, constant?_eq_error]
  refine or_congr_right ⟨?_, ?_⟩
  · rintro ⟨o, ho, herr⟩
    cases o with
    | some v => cases herr
    | none =>
      by_cases h : scope.IsSignal i
      · rw [constant?_of_isSignal h] at ho
        cases ho
      · obtain ⟨o, ho', hnone⟩ := constant?_of_not_isSignal h
        obtain rfl := Except.ok.inj (ho'.symm.trans ho)
        exact ⟨hnone.1 rfl, (Except.error.inj herr).symm⟩
  · rintro ⟨hnone, rfl⟩
    refine ⟨none, ?_, rfl⟩
    rw [constant?, hnone]

/-! ### Parts at fault -/

theorem located_eq_error {α : Type} {span : Span} {r : Except EvalFault α} :
    located span r = .error err ↔ ∃ fault, r = .error fault ∧ err = .constant fault span := by
  cases r with
  | ok a => simp [located, Except.mapError]
  | error f => simp [located, Except.mapError, eq_comm]

theorem evalAll_append {before after : List Syntax.Expr} (h : evalAll scope before = .ok ()) :
    evalAll scope (before ++ after) = evalAll scope after := by
  induction before with
  | nil => rfl
  | cons e before ih =>
    obtain ⟨v, hv, h⟩ := Result.bind_eq_ok.1 h
    rw [List.cons_append, evalAll, hv]
    exact ih h

theorem evalAll_of_error {before after : List Syntax.Expr} {e : Syntax.Expr}
    (hbefore : evalAll scope before = .ok ()) (h : eval scope e = .error err) :
    evalAll scope (before ++ e :: after) = .error err := by
  rw [evalAll_append hbefore, evalAll, h]
  rfl

/-- The name of an expression is looked up before anything else. -/
theorem eval_of_isSignal : ∀ {e : Syntax.Expr} {u : Syntax.NameUse}, e.ownName? = some u →
    scope.IsSignal u.ident → eval scope e = .error (.notConstant u.ident.name u.ident.span)
  | .name _, _, rfl, h => constant_eq_error.2 (.inl ⟨h, rfl⟩)
  | .call .., _, rfl, h => Result.bind_eq_error.2 (.inl (constant?_of_isSignal h))
  | .slice .., _, rfl, h => Result.bind_eq_error.2 (.inl (constant_eq_error.2 (.inl ⟨h, rfl⟩)))
  | .attribute .., _, rfl, h => Result.bind_eq_error.2 (.inl (constant_eq_error.2 (.inl ⟨h, rfl⟩)))

theorem eval_of_not_allows : ∀ {e : Syntax.Expr} {u : Syntax.NameUse}, e.ownName? = some u →
    ¬ scope.Allows u → eval scope e = .error (.unresolvedGeneric u.ident.name u.ident.span)
  | .name _, _, rfl, h => constant_eq_error.2 (.inr ⟨not_not.1 h, rfl⟩)
  | .call .., _, rfl, h => absurd trivial h
  | .slice .., _, rfl, h => Result.bind_eq_error.2 (.inl (constant_eq_error.2 (.inr ⟨not_not.1 h, rfl⟩)))
  | .attribute .., _, rfl, h =>
    Result.bind_eq_error.2 (.inl (constant_eq_error.2 (.inr ⟨not_not.1 h, rfl⟩)))

theorem eval_of_atFault {e : Syntax.Expr} (h : AtFault scope e err) : eval scope e = .error err := by
  cases h with
  | unknown hu hnot => exact eval_of_not_allows hu hnot
  | signal hu hsignal => exact eval_of_isSignal hu hsignal
  | operator ha hrun =>
    cases ha with
    | unary he =>
      rw [eval, he]
      exact located_eq_error.2 ⟨_, hrun, rfl⟩
    | binary hl hr =>
      rw [eval, hl, hr]
      exact located_eq_error.2 ⟨_, hrun, rfl⟩

theorem ComesTo.eval_eq_error {e d : Syntax.Expr} (h : ComesTo scope e d) (hd : eval scope d = .error err) :
    eval scope e = .error err := by
  induction h with
  | refl => exact hd
  | operand _ ih =>
    rw [eval, ih hd]
    rfl
  | left _ ih =>
    rw [eval, ih hd]
    rfl
  | right hl _ ih =>
    rw [eval, hl, ih hd]
    rfl
  | argument hf hbefore _ ih =>
    obtain ⟨o, ho, -⟩ := constant?_of_not_isSignal hf
    rw [eval, ho, evalAll_of_error hbefore (ih hd)]
    rfl
  | element hbefore _ ih =>
    rw [eval, evalAll_of_error hbefore (ih hd)]
    rfl

theorem atFault_of_constant {e : Syntax.Expr} {u : Syntax.NameUse} (hu : e.ownName? = some u)
    (hallows : scope.Allows u → scope.find? u.ident.name ≠ none)
    (h : constant scope u.ident = .error err) : AtFault scope e err := by
  rcases constant_eq_error.1 h with ⟨hsignal, rfl⟩ | ⟨hnone, rfl⟩
  · exact .signal hu hsignal
  · exact .unknown hu fun hall => hallows hall hnone

theorem bind_composite_eq_error {α : Type} {x : Result α} :
    (x >>= fun _ => .ok Value.composite) = .error err ↔ x = .error err := by
  rw [Result.bind_eq_error]
  refine or_iff_left ?_
  rintro ⟨_, -, h⟩
  cases h

mutual

theorem comesTo_fault : ∀ {e : Syntax.Expr}, eval scope e = .error err →
    ∃ d, ComesTo scope e d ∧ AtFault scope d err
  | .int .., h | .bool .., h | .char .., h | .str .., h => by cases h
  | .name i, h => ⟨_, .refl, atFault_of_constant rfl id h⟩
  | .slice .., h => ⟨_, .refl, atFault_of_constant rfl id (bind_composite_eq_error.1 h)⟩
  | .attribute .., h => ⟨_, .refl, atFault_of_constant rfl id (bind_composite_eq_error.1 h)⟩
  | .call f args span, h => by
    rcases Result.bind_eq_error.1 h with h | ⟨o, ho, h⟩
    · obtain ⟨hsignal, rfl⟩ := constant?_eq_error.1 h
      exact ⟨_, .refl, .signal (u := ⟨f, .callee⟩) rfl hsignal⟩
    · have hf : ¬ scope.IsSignal f := fun hf => by
        rw [constant?_of_isSignal hf] at ho
        cases ho
      obtain ⟨before, e, after, d, rfl, hbefore, hd, hfault⟩ :=
        comesTo_fault_of_all (bind_composite_eq_error.1 h)
      exact ⟨d, .argument hf hbefore hd, hfault⟩
  | .unary op e span, h => by
    rcases Result.bind_eq_error.1 h with h | ⟨a, ha, h⟩
    · obtain ⟨d, hd, hfault⟩ := comesTo_fault h
      exact ⟨d, .operand hd, hfault⟩
    · obtain ⟨fault, hrun, rfl⟩ := located_eq_error.1 h
      exact ⟨_, .refl, .operator (e := .unary op e span) (a := .unary op a) (.unary ha) hrun⟩
  | .binary op l r span, h => by
    rcases Result.bind_eq_error.1 h with h | ⟨a, ha, h⟩
    · obtain ⟨d, hd, hfault⟩ := comesTo_fault h
      exact ⟨d, .left hd, hfault⟩
    rcases Result.bind_eq_error.1 h with h | ⟨b, hb, h⟩
    · obtain ⟨d, hd, hfault⟩ := comesTo_fault h
      exact ⟨d, .right ha hd, hfault⟩
    · obtain ⟨fault, hrun, rfl⟩ := located_eq_error.1 h
      exact ⟨_, .refl, .operator (e := .binary op l r span) (a := .binary op a b) (.binary ha hb) hrun⟩
  | .aggregate vs span, h => by
    obtain ⟨before, e, after, d, rfl, hbefore, hd, hfault⟩ :=
      comesTo_fault_of_all (bind_composite_eq_error.1 h)
    exact ⟨d, .element hbefore hd, hfault⟩

theorem comesTo_fault_of_all : ∀ {es : List Syntax.Expr}, evalAll scope es = .error err →
    ∃ before e after d, es = before ++ e :: after ∧ evalAll scope before = .ok () ∧
      ComesTo scope e d ∧ AtFault scope d err
  | [], h => by cases h
  | e :: es, h => by
    rcases Result.bind_eq_error.1 h with h | ⟨v, hv, h⟩
    · obtain ⟨d, hd, hfault⟩ := comesTo_fault h
      exact ⟨[], e, es, d, rfl, rfl, hd, hfault⟩
    · obtain ⟨before, e', after, d, rfl, hbefore, hd, hfault⟩ := comesTo_fault_of_all h
      refine ⟨e :: before, e', after, d, rfl, ?_, hd, hfault⟩
      rw [evalAll, hv]
      exact hbefore

end

theorem eval_eq_error_iff {e : Syntax.Expr} :
    eval scope e = .error err ↔ ∃ d, ComesTo scope e d ∧ AtFault scope d err := by
  constructor
  · exact comesTo_fault
  · rintro ⟨d, hd, hfault⟩
    exact hd.eval_eq_error (eval_of_atFault hfault)

end

end HdlLint.Design
