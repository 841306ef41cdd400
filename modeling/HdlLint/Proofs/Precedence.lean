import HdlLint.Proofs.Agreement

/-!
# Binding powers are layers

The grammar of expressions has a layer of rules for each pair of binding powers: an expression of one
layer is a sequence of expressions of the next layer with operators of its own between them, grouped
to the left. `layered` reads an expression by these rules, one after the other and without any
powers. It does what `Parse.expr` does, from every state (`layered_eq_expr`). Only which operators have
at least a given power matters (`atLeast_congr`), so the powers between two layers make no difference.
-/

namespace HdlLint.Syntax.Parse

/-! ### The layers -/

/-- Operands that `next` reads, with operators of `ops` between them, grouped to the left. -/
def level (ops : List BinaryOp) (next : Parse Expr) : Parse Expr := do
  let lhs ← next
  fueled fun n => chain (· ∈ ops) (fun _ => next) n lhs

/-- A sign, `not` or `abs` with its operand, or a primary with its power; `inner` reads the
expressions in parentheses. -/
def factorAt (inner : Parse Expr) : Nat → Parse Expr
  | 0 => failure
  | n + 1 => do
    let s ← get
    match UnaryOp.ofToken? s.kind with
    | some op =>
      advance
      let e ← factorAt inner n
      return .unary op e (s.span.cover e.span)
    | none =>
      let base ← primary inner
      if ← eatSign .doubleStar then
        return .join .pow base (← factorAt inner n)
      else
        return base

def factor (inner : Parse Expr) : Parse Expr := fueled (factorAt inner)

def term (inner : Parse Expr) : Parse Expr := level [.mul, .div, .mod, .rem] (factor inner)

def sum (inner : Parse Expr) : Parse Expr := level [.add, .sub, .concat] (term inner)

def shift (inner : Parse Expr) : Parse Expr := level [.sll, .srl] (sum inner)

def relation (inner : Parse Expr) : Parse Expr :=
  level [.eq, .neq, .lt, .le, .gt, .ge] (shift inner)

def logical (inner : Parse Expr) : Parse Expr :=
  level [.and, .or, .nand, .nor, .xor, .xnor] (relation inner)

/-- An expression, read layer by layer, with parentheses nested at most as deep as the fuel allows. -/
def layered : Nat → Parse Expr
  | 0 => failure
  | n + 1 => logical (layered n)

/-! ### Expressions without fuel -/

variable {s s' : ParseState} {α β : Type}

/-- An expression whose operators outside of parentheses bind to the left with at least the power
`least`. -/
def atLeast (least : Nat) : Parse Expr := fueled fun n => exprAt n least

/-- Operators with `takes` after an operand, as many as follow. -/
def chains (takes : BinaryOp → Bool) (rhs : BinaryOp → Parse Expr) (lhs : Expr) : Parse Expr :=
  fueled fun n => chain takes rhs n lhs

theorem exprAt_agrees_atLeast (n least : Nat) : Agrees n (exprAt n least) (atLeast least) := by
  intro s hs
  exact exprAt_agrees n (s.rest.length + 1) least s (by omega)

/-- Operators that bind an operand with at least the power `least`, after it. -/
def climbs (least : Nat) (lhs : Expr) : Parse Expr :=
  chains (fun op => least ≤ op.bindingPower.1) (fun op => atLeast op.bindingPower.2) lhs

theorem atLeast_agrees (least : Nat) (s : ParseState) :
    AgreesAt s.rest.length (atLeast least) (operand atLeast >>= climbs least) s := by
  have he : ∀ least, Agrees s.rest.length (exprAt s.rest.length least) (atLeast least) :=
    exprAt_agrees_atLeast s.rest.length
  refine (operand_agrees he (Nat.lt_succ_self _)).andThen fun lhs t ht => ?_
  rw [climb_eq_chain]
  exact (chain_agrees (fun op => he _) lhs ht ht (Nat.lt_succ_self _)).mono ht

theorem atLeast_eq (least : Nat) : atLeast least = operand atLeast >>= climbs least :=
  funext fun s => (atLeast_agrees least s).1

/-- Two bounds that admit the same operators read the same expressions. -/
theorem atLeast_congr {least least' : Nat}
    (h : ∀ op : BinaryOp, least ≤ op.bindingPower.1 ↔ least' ≤ op.bindingPower.1) :
    atLeast least = atLeast least' := by
  have hclimbs : climbs least = climbs least' := by
    unfold climbs
    simp only [h]
  rw [atLeast_eq, atLeast_eq, hclimbs]

theorem atLeast_shortens (least : Nat) : Shortens (atLeast least) :=
  fun s => (atLeast_agrees least s).2

theorem operand_shortens : Shortens (operand atLeast) :=
  fun _ => (operand_agrees (fun k => .of_shortens (atLeast_shortens k)) (Nat.lt_succ_self _)).2

/-! ### Chains -/

section
variable {takes : BinaryOp → Bool} {rhs : BinaryOp → Parse Expr} {lhs : Expr} {op : BinaryOp}

theorem run_kind (s : ParseState) : kind s = (some s.kind, s) := rfl

theorem chains_of_none (h : (BinaryOp.ofToken? s.kind).filter takes = none) :
    chains takes rhs lhs s = (some lhs, s) := by
  show chain takes rhs (s.rest.length + 1) lhs s = _
  rw [chain, run_bind_some (run_kind s), h]
  rfl

theorem chains_of_some (hrhs : ∀ op, Shortens (rhs op))
    (h : (BinaryOp.ofToken? s.kind).filter takes = some op) :
    chains takes rhs lhs s =
      (do let r ← rhs op; chains takes rhs (.join op lhs r) : Parse Expr) s.advance := by
  have hrun : chains takes rhs lhs s =
      (do let r ← rhs op; chain takes rhs s.rest.length (.join op lhs r) : Parse Expr) s.advance := by
    show chain takes rhs (s.rest.length + 1) lhs s = _
    rw [chain, run_bind_some (run_kind s), h]
    rfl
  rw [hrun]
  refine run_bind_congr fun r t hr => ?_
  have hadvance := ParseState.length_advance_lt (binary_kind_ne_eof (Option.filter_eq_some_iff.1 h).1)
  have ht : t.rest.length < s.rest.length := Nat.lt_trans (hrhs op _ r t hr) hadvance
  exact (chain_agrees (fun op => .of_shortens (hrhs op)) _ ht ht (Nat.lt_succ_self _)).1

/-- A chain ends where no operator follows that it takes. -/
theorem chains_stops (hrhs : ∀ op, Shortens (rhs op)) {e : Expr}
    (h : chains takes rhs lhs s = (some e, s')) :
    (BinaryOp.ofToken? s'.kind).filter takes = none := by
  induction hn : s.rest.length using Nat.strongRecOn generalizing s lhs with
  | _ n ih =>
    cases hop : (BinaryOp.ofToken? s.kind).filter takes with
    | none =>
      rw [chains_of_none hop] at h
      obtain ⟨-, rfl⟩ := Prod.mk.inj h
      exact hop
    | some op =>
      rw [chains_of_some hrhs hop] at h
      rcases hr : rhs op s.advance with ⟨_ | r, t⟩
      · rw [run_bind_none hr] at h
        cases h
      · rw [run_bind_some hr] at h
        have hadvance := ParseState.length_advance_lt
          (binary_kind_ne_eof (Option.filter_eq_some_iff.1 hop).1)
        have ht : t.rest.length < n := hn ▸ Nat.lt_trans (hrhs op _ r t hr) hadvance
        exact ih _ ht h rfl

end

theorem rhs_shortens (op : BinaryOp) : Shortens (atLeast op.bindingPower.2) := atLeast_shortens _

/-- Behind an expression no operator follows that belongs to it. -/
theorem power_lt_of_atLeast {least : Nat} {e : Expr} (h : atLeast least s = (some e, s'))
    {op : BinaryOp} (hop : BinaryOp.ofToken? s'.kind = some op) : op.bindingPower.1 < least := by
  rw [atLeast_eq] at h
  rcases hl : operand atLeast s with ⟨_ | lhs, t⟩
  · rw [run_bind_none hl] at h
    cases h
  · rw [run_bind_some hl] at h
    have hstop := chains_stops rhs_shortens h
    rw [hop] at hstop
    simpa [Option.filter] using hstop

theorem climbs_of_power_lt {least : Nat} {lhs : Expr}
    (h : ∀ op, BinaryOp.ofToken? s.kind = some op → op.bindingPower.1 < least) :
    climbs least lhs s = (some lhs, s) := by
  refine chains_of_none ?_
  rw [Option.filter_eq_none_iff]
  intro op hop
  have hlt := h op hop
  simp only [decide_eq_true_eq]
  omega

theorem climbs_of_le_power {least : Nat} {lhs : Expr} {op : BinaryOp}
    (hop : BinaryOp.ofToken? s.kind = some op) (hle : least ≤ op.bindingPower.1) :
    climbs least lhs s =
      (do let r ← atLeast op.bindingPower.2; climbs least (.join op lhs r) : Parse Expr) s.advance := by
  refine chains_of_some rhs_shortens ?_
  simp [hop, Option.filter, hle]

/-! ### One layer after the other -/

section
variable {k : Nat} {ops : List BinaryOp} (hops : ∀ op, op ∈ ops ↔ op.bindingPower = (k, k + 1))
  (hk : ∀ op : BinaryOp, op.bindingPower.1 = k → op ∈ ops)
include hops hk

/-- To take operators of at least the power `k` is to take the stronger ones first, and then those
of this power with what belongs to them. -/
theorem climbs_eq (lhs : Expr) : climbs k lhs =
    climbs (k + 1) lhs >>= chains (· ∈ ops) fun _ => atLeast (k + 1) := by
  funext s
  induction hn : s.rest.length using Nat.strongRecOn generalizing s lhs with
  | _ n ih =>
    have hshort : ∀ _ : BinaryOp, Shortens (atLeast (k + 1)) := fun _ => atLeast_shortens _
    -- the text that is left behind an operator and its right operand is shorter
    have hleft : ∀ {op least r t}, BinaryOp.ofToken? s.kind = some op →
        atLeast least s.advance = (some r, t) → t.rest.length < n := by
      intro op least r t hop hr
      have hadvance := ParseState.length_advance_lt (binary_kind_ne_eof hop)
      exact hn ▸ Nat.lt_trans (atLeast_shortens _ _ r t hr) hadvance
    by_cases hweak : ∀ op, BinaryOp.ofToken? s.kind = some op → op.bindingPower.1 < k
    · have hnone : (BinaryOp.ofToken? s.kind).filter (· ∈ ops) = none := by
        rw [Option.filter_eq_none_iff]
        intro op hop hmem
        have hlt := hweak op hop
        have heq := congrArg Prod.fst ((hops op).1 (by simpa using hmem))
        dsimp only at heq
        omega
      rw [climbs_of_power_lt hweak,
        run_bind_some (climbs_of_power_lt fun op hop => Nat.lt_succ_of_lt (hweak op hop)),
        chains_of_none hnone]
    · obtain ⟨op, hop, hle⟩ : ∃ op, BinaryOp.ofToken? s.kind = some op ∧ k ≤ op.bindingPower.1 := by
        simpa using hweak
      rw [climbs_of_le_power hop hle]
      rcases Nat.eq_or_lt_of_le hle with heq | hgt
      · -- an operator of the layer itself: the stronger ones are all behind it
        have hmem : op ∈ ops := hk op heq.symm
        have hin : (BinaryOp.ofToken? s.kind).filter (· ∈ ops) = some op := by
          simp [hop, Option.filter, hmem]
        have hstuck : climbs (k + 1) lhs s = (some lhs, s) := by
          refine climbs_of_power_lt fun op' hop' => ?_
          obtain rfl := Option.some.inj (hop.symm.trans hop')
          omega
        rw [run_bind_some hstuck, chains_of_some hshort hin, (hops op).1 hmem]
        refine run_bind_congr fun r t hr => ?_
        rw [ih _ (hleft hop hr) _ _ rfl,
          run_bind_some (climbs_of_power_lt fun _ => power_lt_of_atLeast hr)]
      · rw [run_bind_of_eq (climbs_of_le_power hop (Nat.succ_le_of_lt hgt)), bind_assoc]
        exact run_bind_congr fun r t hr => ih _ (hleft hop hr) _ _ rfl

theorem level_atLeast : level ops (atLeast (k + 1)) = atLeast k := by
  have hlevel : level ops (atLeast (k + 1)) =
      atLeast (k + 1) >>= chains (· ∈ ops) fun _ => atLeast (k + 1) := rfl
  rw [hlevel, atLeast_eq k, funext (climbs_eq hops hk), ← bind_assoc, ← atLeast_eq]

end

/-- The operators `ops` are those that bind with the powers `k` and `k + 1`. At least the power `least`
have only these and what binds more, and at least `next` only what binds more. -/
def IsLayer (ops : List BinaryOp) (k least next : Nat) : Prop :=
  ∀ op : BinaryOp, (op ∈ ops ↔ op.bindingPower = (k, k + 1)) ∧ (op.bindingPower.1 = k → op ∈ ops) ∧
    (least ≤ op.bindingPower.1 ↔ k ≤ op.bindingPower.1) ∧
    (next ≤ op.bindingPower.1 ↔ k + 1 ≤ op.bindingPower.1)

/-- Expressions of one layer are those of the next, with operators of the layer between them. -/
theorem IsLayer.level_eq {ops : List BinaryOp} {k least next : Nat} (h : IsLayer ops k least next) :
    level ops (atLeast next) = atLeast least := by
  rw [atLeast_congr fun op => (h op).2.2.1, atLeast_congr fun op => (h op).2.2.2]
  exact level_atLeast (fun op => (h op).1) fun op => (h op).2.1

/-! ### Factors -/

theorem kind_of_unary_le {k : TokenKind} {op : BinaryOp} (h : BinaryOp.ofToken? k = some op)
    (hop : UnaryOp.bindingPower ≤ op.bindingPower.1) : k = .symbol .doubleStar := by
  obtain rfl : op = .pow := by cases op <;> simp [BinaryOp.bindingPower, UnaryOp.bindingPower] at hop ⊢
  unfold BinaryOp.ofToken? at h
  split at h <;> simp_all

/-- A primary with its power is what operators that bind more than a prefixed one make of it. -/
theorem climbs_unary {n : Nat} {base : Expr}
    (h : ∀ t, t.rest.length < s.rest.length → factorAt (atLeast leastPower) n t = atLeast UnaryOp.bindingPower t) :
    (do
      if ← eatSign .doubleStar then
        return .join .pow base (← factorAt (atLeast leastPower) n)
      else
        return base : Parse Expr) s = climbs UnaryOp.bindingPower base s := by
  by_cases hstar : s.kind = .symbol .doubleStar
  · have hop : BinaryOp.ofToken? s.kind = some .pow := by rw [hstar]; rfl
    have hadvance := ParseState.length_advance_lt (binary_kind_ne_eof hop)
    rw [climbs_of_le_power hop (by decide), eatSign, run_bind_some (eat_of_kind hstar), if_pos rfl,
      run_bind_of_eq (h _ hadvance)]
    exact run_bind_congr fun r t hr =>
      (climbs_of_power_lt fun _ => power_lt_of_atLeast hr).symm
  · have hweak : ∀ op, BinaryOp.ofToken? s.kind = some op → op.bindingPower.1 < UnaryOp.bindingPower := fun op hop =>
      Nat.lt_of_not_le fun hle => hstar (kind_of_unary_le hop hle)
    rw [climbs_of_power_lt hweak, eatSign, run_bind_some (eat_of_ne hstar)]
    rfl

theorem factorAt_eq {n : Nat} (h : s.rest.length < n) :
    factorAt (atLeast leastPower) n s = atLeast UnaryOp.bindingPower s := by
  induction n generalizing s with
  | zero => omega
  | succ n ih =>
    rw [atLeast_eq UnaryOp.bindingPower]
    cases hop : UnaryOp.ofToken? s.kind with
    | some op =>
      have hadvance := ParseState.length_advance_lt (unary_kind_ne_eof hop)
      have hfactor : factorAt (atLeast leastPower) (n + 1) s = (do
          let e ← factorAt (atLeast leastPower) n
          return .unary op e (s.span.cover e.span) : Parse Expr) s.advance := by
        show (match UnaryOp.ofToken? s.kind with | some op => _ | none => _ : Parse Expr) s = _
        rw [hop]
        rfl
      have hoperand : operand atLeast s = (do
          let e ← atLeast UnaryOp.bindingPower
          return .unary op e (s.span.cover e.span) : Parse Expr) s.advance := by
        show (match UnaryOp.ofToken? s.kind with | some op => _ | none => _ : Parse Expr) s = _
        rw [hop]
        rfl
      rw [hfactor, run_bind_of_eq hoperand, bind_assoc, run_bind_of_eq (ih (by omega))]
      exact run_bind_congr fun r t hr =>
        (climbs_of_power_lt fun _ => power_lt_of_atLeast hr).symm
    | none =>
      have hfactor : factorAt (atLeast leastPower) (n + 1) s = (do
          let base ← primary (atLeast leastPower)
          if ← eatSign .doubleStar then
            return .join .pow base (← factorAt (atLeast leastPower) n)
          else
            return base : Parse Expr) s := by
        show (match UnaryOp.ofToken? s.kind with | some op => _ | none => _ : Parse Expr) s = _
        rw [hop]
      have hoperand : operand atLeast s = primary (atLeast leastPower) s := by
        show (match UnaryOp.ofToken? s.kind with | some op => _ | none => _ : Parse Expr) s = _
        rw [hop]
      rw [hfactor, run_bind_of_eq hoperand]
      refine run_bind_congr fun base t hbase => climbs_unary fun u hu => ih ?_
      have ht := operand_shortens s base t (hoperand.trans hbase)
      omega

theorem factor_atLeast : factor (atLeast leastPower) = atLeast UnaryOp.bindingPower :=
  funext fun _ => factorAt_eq (Nat.lt_succ_self _)

/-- The layers, with expressions in parentheses as they are read, are the expressions. -/
theorem logical_atLeast : logical (atLeast leastPower) = atLeast leastPower := by
  have hproducts : IsLayer [.mul, .div, .mod, .rem] 9 9 UnaryOp.bindingPower := by
    intro op; cases op <;> decide
  have hsums : IsLayer [.add, .sub, .concat] 7 7 9 := by intro op; cases op <;> decide
  have hshifts : IsLayer [.sll, .srl] 5 5 7 := by intro op; cases op <;> decide
  have hrelations : IsLayer [.eq, .neq, .lt, .le, .gt, .ge] 3 3 5 := by intro op; cases op <;> decide
  have hlogical : IsLayer [.and, .or, .nand, .nor, .xor, .xnor] 1 leastPower 3 := by
    intro op; cases op <;> decide
  rw [logical, relation, shift, sum, term, factor_atLeast, hproducts.level_eq, hsums.level_eq,
    hshifts.level_eq, hrelations.level_eq, hlogical.level_eq]

/-! ### Layers that agree -/

theorem level_agrees {m : Nat} {next next' : Parse Expr} (ops : List BinaryOp)
    (h : AgreesPast m next next') : AgreesPast m (level ops next) (level ops next') := by
  intro s hs
  refine (h s hs).andThen fun lhs t ht => ?_
  have hlt := Nat.lt_succ_self t.rest.length
  exact (chain_agrees (fun _ => h.agrees) lhs (by omega) hlt hlt).mono ht

section
variable {m : Nat} {inner inner' : Parse Expr} (h : Agrees m inner inner')
include h

theorem factorAt_agrees (n : Nat) : AgreesPast m (factorAt inner n) (factorAt inner' n) := by
  induction n with
  | zero => exact fun s _ => .of_none rfl
  | succ n ih =>
    intro s hs
    have hinner : Agrees s.rest.length inner inner' := fun t ht => h t (by omega)
    have hfactor : Agrees s.rest.length (factorAt inner n) (factorAt inner' n) :=
      fun t ht => ih.agrees t (by omega)
    refine AgreesAt.get ?_
    split
    · rename_i op hop
      refine (AgreesAt.advance (unary_kind_ne_eof hop) (Nat.lt_succ_self _)).bind fun _ => ?_
      exact hfactor.bind fun _ => .pure _
    · refine (primary_agrees hinner (Nat.lt_succ_self _)).bind fun base => ?_
      refine (Agrees.of_steady fun r => (reads_suffix r).eatSign _).bind fun _ => .ite ?_ (.pure _)
      exact hfactor.bind fun _ => .pure _

theorem logical_agrees : AgreesPast m (logical inner) (logical inner') := by
  have hfactor : AgreesPast m (factor inner) (factor inner') :=
    fun s hs => factorAt_agrees h _ s hs
  exact level_agrees _ (level_agrees _ (level_agrees _ (level_agrees _ (level_agrees _ hfactor))))

end

theorem layered_eq_atLeast {n : Nat} (hs : s.rest.length < n) : layered n s = atLeast leastPower s := by
  induction n generalizing s with
  | zero => omega
  | succ n ih =>
    have hinner : Agrees n (layered n) (atLeast leastPower) := by
      intro t ht
      refine ⟨ih ht, fun e t' he => ?_⟩
      have := atLeast_shortens leastPower t e t' ((ih ht).symm.trans he)
      omega
    calc layered (n + 1) s = logical (atLeast leastPower) s := (logical_agrees hinner s hs).1
      _ = atLeast leastPower s := by rw [logical_atLeast]

/-- Reading by binding powers is reading by layers: the two give the same expression, pass the same tokens
and report the same faults, in every state. Any amount of fuel above the number of tokens will do. -/
theorem layered_eq_expr (s : ParseState) (extra : Nat) :
    layered (s.rest.length + 1 + extra) s = Parse.expr s :=
  layered_eq_atLeast (by omega)

end HdlLint.Syntax.Parse
