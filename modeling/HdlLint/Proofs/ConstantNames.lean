import HdlLint.Proofs.Building
import HdlLint.Proofs.Evaluation

/-!
# The names of a constant expression are those of constants

`eval_allows`: if an expression has a value, then each of its names outside of the bounds of slices stands
for a constant or a type, unless it is that of a function, which may stand for nothing. If one of these
names does not, then the expression has no value, and neither has what is made of it: a default, a
constant, a width or a loop (`Refused`). The fault is that of such a name, or that of an operator that is
applied before any of them is looked at.

Names in the bounds of a slice are not looked at.
-/

namespace HdlLint.Syntax

mutual

/-- The names of an expression, apart from those in the bounds of slices. -/
def Expr.outerNames : Expr → List NameUse
  | .int .. | .bool .. | .char .. | .str .. => []
  | .name i => [⟨i, .value⟩]
  | .call f args _ => ⟨f, .callee⟩ :: outerNamesOfExprs args
  | .slice b _ _ _ _ => [⟨b, .sliced⟩]
  | .attribute b a _ => [⟨b, .attributed a⟩]
  | .unary _ e _ => e.outerNames
  | .binary _ l r _ => l.outerNames ++ r.outerNames
  | .aggregate vs _ => outerNamesOfExprs vs

def outerNamesOfExprs : List Expr → List NameUse
  | [] => []
  | e :: es => e.outerNames ++ outerNamesOfExprs es

end

theorem mem_outerNamesOfExprs {u : NameUse} {es : List Expr} :
    u ∈ outerNamesOfExprs es ↔ ∃ e ∈ es, u ∈ e.outerNames := by
  induction es with
  | nil => simp [outerNamesOfExprs]
  | cons e es ih => simp [outerNamesOfExprs, ih]

theorem Expr.mem_outerNames_of_ownName? : ∀ {e : Expr} {u : NameUse}, e.ownName? = some u → u ∈ e.outerNames
  | .name _, _, rfl | .call .., _, rfl | .slice .., _, rfl | .attribute .., _, rfl => List.mem_cons_self

end HdlLint.Syntax

namespace HdlLint.Design

/-- The name may be used where a constant is asked for: it stands for no signal and, unless it is that of
a function, for something. -/
def Scope.AllowsConstant (scope : Scope) (u : Syntax.NameUse) : Prop :=
  scope.Allows u ∧ ¬ scope.IsSignal u.ident

section
variable {scope : Scope} {err : DesignError}

/-! ### Names that have been looked at -/

theorem allowsConstant_of_ownName? {e : Syntax.Expr} {u : Syntax.NameUse} {v : Value}
    (hu : e.ownName? = some u) (h : eval scope e = .ok v) : scope.AllowsConstant u := by
  constructor
  · by_contra hnot
    cases (eval_of_not_allows hu hnot).symm.trans h
  · intro hsignal
    cases (eval_of_isSignal hu hsignal).symm.trans h

mutual

theorem allowsConstant_of_eval : ∀ {e : Syntax.Expr} {v : Value}, eval scope e = .ok v →
    ∀ u ∈ e.outerNames, scope.AllowsConstant u
  | .int .., _, _ | .bool .., _, _ | .char .., _, _ | .str .., _, _ => nofun
  | .name _, _, h => List.forall_mem_singleton.2 (allowsConstant_of_ownName? rfl h)
  | .call f args span, v, h => by
    refine List.forall_mem_cons.2 ⟨allowsConstant_of_ownName? (e := .call f args span) rfl h, ?_⟩
    obtain ⟨_, -, h⟩ := Result.bind_eq_ok.1 h
    obtain ⟨_, hargs, -⟩ := Result.bind_eq_ok.1 h
    exact allowsConstant_of_evalAll hargs
  | .slice b l d r s, _, h =>
    List.forall_mem_singleton.2 (allowsConstant_of_ownName? (e := .slice b l d r s) rfl h)
  | .attribute b a s, _, h =>
    List.forall_mem_singleton.2 (allowsConstant_of_ownName? (e := .attribute b a s) rfl h)
  | .unary op e span, v, h => by
    obtain ⟨_, he, -⟩ := Result.bind_eq_ok.1 h
    exact allowsConstant_of_eval (e := e) he
  | .binary op l r span, v, h => by
    obtain ⟨_, hl, h⟩ := Result.bind_eq_ok.1 h
    obtain ⟨_, hr, -⟩ := Result.bind_eq_ok.1 h
    exact List.forall_mem_append.2 ⟨allowsConstant_of_eval hl, allowsConstant_of_eval hr⟩
  | .aggregate vs span, v, h => by
    obtain ⟨_, hvs, -⟩ := Result.bind_eq_ok.1 h
    exact allowsConstant_of_evalAll hvs

theorem allowsConstant_of_evalAll : ∀ {es : List Syntax.Expr}, evalAll scope es = .ok () →
    ∀ u ∈ Syntax.outerNamesOfExprs es, scope.AllowsConstant u
  | [], _ => nofun
  | e :: es, h => by
    obtain ⟨_, he, hes⟩ := Result.bind_eq_ok.1 h
    exact List.forall_mem_append.2 ⟨allowsConstant_of_eval he, allowsConstant_of_evalAll hes⟩

end

/-- What is come to on the way stands outside of bounds. -/
theorem ComesTo.outerNames_subset {e d : Syntax.Expr} (h : ComesTo scope e d) :
    d.outerNames ⊆ e.outerNames := by
  induction h with
  | refl => exact List.Subset.refl _
  | operand _ ih => exact ih
  | left _ ih => exact List.subset_append_of_subset_left _ ih
  | right _ _ ih => exact List.subset_append_of_subset_right _ ih
  | argument _ _ _ ih =>
    exact fun u hu => List.mem_cons_of_mem _ (Syntax.mem_outerNamesOfExprs.2 ⟨_, by simp, ih hu⟩)
  | element _ _ ih => exact fun u hu => Syntax.mem_outerNamesOfExprs.2 ⟨_, by simp, ih hu⟩

/-! ### What has no value -/

/-- The expression is the left bound of the range, or the right one, and the left one has been found. -/
def NeedsBound (r : Syntax.Range) (bound : Syntax.Expr → Result Int) (e : Syntax.Expr) : Prop :=
  r.left = e ∨ r.right = e ∧ ∃ n, bound r.left = .ok n

/-- The expression has no value for this fault, and neither has a default, a constant, a width or a loop
that asks for its value. -/
structure Refused (scope : Scope) (e : Syntax.Expr) (err : DesignError) : Prop where
  value : eval scope e = .error err
  default : ∀ p g, g.default = some e → genericValue p scope g none = .error err
  constant : ∀ path signals name type span ds,
    bindDecls path scope signals (.constant name type e span :: ds) = .error err
  width : ∀ type range, type.range = some range → NeedsBound range (widthBound scope) e →
    width scope type = .error err
  loop : ∀ l a path (b : Builder) g, b.scope = scope → NeedsBound g.range (generateBound scope g.label) e →
    expandStmt l a path b (.generate g) = .error err

theorem evalInt_eq_error {e : Syntax.Expr} (h : eval scope e = .error err) (fault : String → DesignError) :
    evalInt scope e fault = .error err :=
  Result.bind_eq_error.2 (.inl h)

theorem NeedsBound.bind_eq_error {α : Type} {r : Syntax.Range} {bound : Syntax.Expr → Result Int}
    {e : Syntax.Expr} (h : NeedsBound r bound e) (he : bound e = .error err) (f : Int → Int → Result α) :
    (bound r.left >>= fun left => bound r.right >>= fun right => f left right) = .error err := by
  rcases h with rfl | ⟨rfl, n, hn⟩
  · exact Result.bind_eq_error.2 (.inl he)
  · exact Result.bind_eq_error.2 (.inr ⟨n, hn, Result.bind_eq_error.2 (.inl he)⟩)

theorem refused_of_eval {e : Syntax.Expr} (h : eval scope e = .error err) : Refused scope e err where
  value := h
  default p g hg := by
    unfold genericValue
    rw [hg]
    exact Result.bind_eq_error.2 (.inl h)
  constant path signals name type span ds := Result.bind_eq_error.2 (.inl h)
  width type range htype hneeds := by
    rw [Design.width, htype]
    exact hneeds.bind_eq_error (evalInt_eq_error h _) _
  loop l a path b g hscope hneeds := by
    obtain ⟨label, var, range, decls, body, span⟩ := g
    rw [expandStmt, hscope]
    exact hneeds.bind_eq_error (evalInt_eq_error h _) _

/-- A name that is looked at is that of a constant; one that is not refuses the expression, unless an
operator before it does. -/
theorem eval_allows (scope : Scope) (e : Syntax.Expr) :
    (∀ v, eval scope e = .ok v → ∀ u ∈ e.outerNames, scope.AllowsConstant u) ∧
      ((∃ u ∈ e.outerNames, ¬ scope.AllowsConstant u) → ∃ err, Refused scope e err ∧
        ((err.code = .error 203 ∧ ∃ u ∈ e.outerNames, ¬ scope.Allows u ∧
            err = .unresolvedGeneric u.ident.name u.ident.span) ∨
          (err.code = .error 209 ∧ ∃ u ∈ e.outerNames, scope.IsSignal u.ident ∧
            err = .notConstant u.ident.name u.ident.span) ∨
          err.code = .error 210 ∧ ∃ d a fault, ComesTo scope e d ∧ Applies scope d a ∧
            a.run = .error fault ∧ err = .constant fault d.span)) := by
  refine ⟨fun v => allowsConstant_of_eval, ?_⟩
  rintro ⟨u, hu, hnot⟩
  cases h : eval scope e with
  | ok v => exact absurd (allowsConstant_of_eval h u hu) hnot
  | error err =>
    refine ⟨err, refused_of_eval h, ?_⟩
    obtain ⟨d, hd, hfault⟩ := eval_eq_error_iff.1 h
    cases hfault with
    | unknown hu hallows =>
      exact .inl ⟨rfl, _, hd.outerNames_subset (Syntax.Expr.mem_outerNames_of_ownName? hu), hallows, rfl⟩
    | signal hu hsignal =>
      exact .inr (.inl
        ⟨rfl, _, hd.outerNames_subset (Syntax.Expr.mem_outerNames_of_ownName? hu), hsignal, rfl⟩)
    | operator ha hrun => exact .inr (.inr ⟨rfl, d, _, _, hd, ha, hrun, rfl⟩)

end

/-- `8 * f(k, s)` -/
def scaledCall : Syntax.Expr :=
  .binary .mul (.int 8 ⟨0, 0, 1⟩)
    (.call ⟨"f", ⟨0, 4, 5⟩⟩ [.name ⟨"k", ⟨0, 6, 7⟩⟩, .name ⟨"s", ⟨0, 9, 10⟩⟩] ⟨0, 4, 11⟩) ⟨0, 0, 11⟩

theorem eval_allows_scaledCall :
    (∀ u ∈ scaledCall.outerNames,
      Scope.AllowsConstant ⟨[("k", .constant (.int 3)), ("s", .enumeration 2)], []⟩ u) ∧
    Refused ⟨[("k", .constant (.int 3)), ("s", .signal 0)], []⟩ scaledCall (.notConstant "s" ⟨0, 9, 10⟩) := by
  constructor
  · exact (eval_allows ⟨[("k", .constant (.int 3)), ("s", .enumeration 2)], []⟩ scaledCall).1 .composite
      (by decide)
  · have hmem : ⟨⟨"s", ⟨0, 9, 10⟩⟩, .value⟩ ∈ scaledCall.outerNames := by
      simp [scaledCall, Syntax.Expr.outerNames, Syntax.outerNamesOfExprs]
    obtain ⟨err, hrefused, -⟩ :=
      (eval_allows ⟨[("k", .constant (.int 3)), ("s", .signal 0)], []⟩ scaledCall).2
        ⟨_, hmem, fun h => h.2 ⟨0, rfl⟩⟩
    have herr : eval ⟨[("k", .constant (.int 3)), ("s", .signal 0)], []⟩ scaledCall =
        .error (.notConstant "s" ⟨0, 9, 10⟩) := by decide
    cases hrefused.value.symm.trans herr
    exact hrefused

/-- Whatever has a value names constants only, and whatever names anything else is refused for a name. -/
def NamesConstants (scope : Scope) (e : Syntax.Expr) : Prop :=
  (∀ v, eval scope e = .ok v → ∀ u ∈ e.names, scope.AllowsConstant u) ∧
    ((∃ u ∈ e.names, ¬ scope.AllowsConstant u) →
      ∃ err, eval scope e = .error err ∧ (err.code = .error 203 ∨ err.code = .error 209))

/-- `1 / 0 + m` -/
def quotientFirst : Syntax.Expr :=
  .binary .add (.binary .div (.int 1 ⟨0, 0, 1⟩) (.int 0 ⟨0, 4, 5⟩) ⟨0, 0, 5⟩) (.name ⟨"m", ⟨0, 8, 9⟩⟩)
    ⟨0, 0, 9⟩

/-- `k(m downto 0)` -/
def unknownBound : Syntax.Expr :=
  .slice ⟨"k", ⟨0, 0, 1⟩⟩ (.name ⟨"m", ⟨0, 2, 3⟩⟩) .downto (.int 0 ⟨0, 11, 12⟩) ⟨0, 0, 13⟩

/-- The quotient is refused before the name is looked at, and the name in the bounds never is. -/
theorem eval_passes_unknown : ¬ NamesConstants .empty quotientFirst ∧
    ¬ NamesConstants ⟨[("k", .constant (.str "0000"))], []⟩ unknownBound := by
  constructor
  · intro h
    have hmem : ⟨⟨"m", ⟨0, 8, 9⟩⟩, .value⟩ ∈ quotientFirst.names := by
      simp [quotientFirst, Syntax.Expr.names]
    obtain ⟨err, herr, hcode⟩ := h.2 ⟨_, hmem, fun hallows => hallows.1 rfl⟩
    have hdivision : eval .empty quotientFirst = .error (.constant .divisionByZero ⟨0, 0, 5⟩) := by decide
    cases herr.symm.trans hdivision
    rcases hcode with hcode | hcode <;> cases hcode
  · intro h
    have hmem : ⟨⟨"m", ⟨0, 2, 3⟩⟩, .value⟩ ∈ unknownBound.names := by
      simp [unknownBound, Syntax.Expr.names]
    exact (h.1 .composite (by decide) _ hmem).1 rfl

end HdlLint.Design
