import HdlLint.Proofs.Reading

/-!
# Rules that agree on short texts

A rule for expressions calls itself only after it has passed a token. So what it does is told by what
the rules it calls do where fewer tokens are left (`Agrees`), and the fuel that is handed down does
not matter as long as there is more of it than tokens (`exprAt_agrees`).
-/

namespace HdlLint.Syntax

/-! ### Tokens left -/

namespace ParseState
variable {s : ParseState}

theorem exists_rest_of_kind (h : s.kind ≠ .eof) : ∃ t ts, s.rest = t :: ts ∧ t.kind = s.kind := by
  rw [kind, kindAt] at h ⊢
  rcases hrest : s.rest with _ | ⟨t, ts⟩
  · rw [hrest] at h
    exact absurd rfl h
  · exact ⟨t, ts, rfl, rfl⟩

theorem rest_advance_suffix (s : ParseState) : s.advance.rest <:+ s.rest := by
  unfold advance
  split
  · exact List.suffix_rfl
  · rename_i t ts hrest
    split
    · exact List.suffix_rfl
    · rw [hrest]
      exact List.suffix_cons t ts

theorem length_advance_lt (h : s.kind ≠ .eof) : s.advance.rest.length < s.rest.length := by
  obtain ⟨t, ts, hrest, ht⟩ := exists_rest_of_kind h
  have hne : t.kind ≠ .eof := ht ▸ h
  simp [advance, hrest, hne]

end ParseState

namespace Parse
variable {α β : Type} {s : ParseState}

/-- No rule brings tokens back. -/
theorem reads_suffix (r : List Token) : Reads (fun s => s.rest <:+ r) fun _ => True where
  pass s h := s.rest_advance_suffix.trans h
  report _ _ _ h _ := h
  here _ _ := trivial
  last _ _ := trivial
  cover _ _ _ _ := trivial

/-- A rule that leaves an end of the text it starts from. -/
def Steady (p : Parse α) : Prop := ∀ r, Keeps (fun s => s.rest <:+ r) p

theorem Steady.suffix {p : Parse α} (h : Steady p) (s : ParseState) : (p s).2.rest <:+ s.rest :=
  (h s.rest s List.suffix_rfl).1

theorem Steady.length_le {p : Parse α} (h : Steady p) (s : ParseState) :
    (p s).2.rest.length ≤ s.rest.length :=
  (h.suffix s).length_le

/-! ### Runs of the smallest rules -/

theorem expect_of_kind {k : TokenKind} (h : s.kind = k) : expect k s = (some s.span, s.advance) := by
  show (if s.kind == k then _ else _ : Parse Span) s = _
  rw [if_pos (beq_iff_eq.2 h)]
  rfl

theorem expect_of_ne {k : TokenKind} (h : s.kind ≠ k) : (expect k s).1 = none := by
  show ((if s.kind == k then _ else _ : Parse Span) s).1 = _
  rw [if_neg (mt beq_iff_eq.1 h)]
  rfl

theorem eat_of_kind {k : TokenKind} (h : s.kind = k) : eat k s = (some true, s.advance) := by
  show (if s.kind == k then _ else _ : Parse Bool) s = _
  rw [if_pos (beq_iff_eq.2 h)]
  rfl

theorem eat_of_ne {k : TokenKind} (h : s.kind ≠ k) : eat k s = (some false, s) := by
  show (if s.kind == k then _ else _ : Parse Bool) s = _
  rw [if_neg (mt beq_iff_eq.1 h)]
  rfl

theorem ident_of_kind (h : s.kind = .identifier) :
    ident s = (some ⟨Ascii.lower s.text, s.span⟩, s.advance) := by
  show (if s.kind == .identifier then _ else _ : Parse Ident) s = _
  rw [if_pos (beq_iff_eq.2 h)]
  rfl

theorem ident_of_ne (h : s.kind ≠ .identifier) : (ident s).1 = none := by
  show ((if s.kind == .identifier then _ else _ : Parse Ident) s).1 = _
  rw [if_neg (mt beq_iff_eq.1 h)]
  rfl

/-! ### Rules that pass a token -/

/-- A rule that gives something only after it has passed a token. -/
def Shortens (p : Parse α) : Prop :=
  ∀ s a s', p s = (some a, s') → s'.rest.length < s.rest.length

theorem expect_shortens {k : TokenKind} (hk : k ≠ .eof) : Shortens (expect k) := by
  intro s a s' h
  by_cases hs : s.kind = k
  · obtain ⟨-, rfl⟩ := Prod.mk.inj ((expect_of_kind hs).symm.trans h)
    exact ParseState.length_advance_lt (hs ▸ hk)
  · have hnone := expect_of_ne hs
    rw [h] at hnone
    cases hnone

theorem ident_shortens : Shortens ident := by
  intro s a s' h
  by_cases hs : s.kind = .identifier
  · obtain ⟨-, rfl⟩ := Prod.mk.inj ((ident_of_kind hs).symm.trans h)
    exact ParseState.length_advance_lt (hs ▸ nofun)
  · have hnone := ident_of_ne hs
    rw [h] at hnone
    cases hnone

/-- A rule that shortens the text, and then one that leaves it no longer. -/
theorem Shortens.bind {p : Parse α} {f : α → Parse β} (hp : Shortens p)
    (hf : ∀ a, Steady (f a)) : Shortens (p >>= f) := by
  intro s b s' h
  rcases hps : p s with ⟨_ | a, s''⟩
  · rw [run_bind_none hps] at h
    cases h
  · rw [run_bind_some hps] at h
    have hle := (hf a).length_le s''
    rw [h] at hle
    exact Nat.lt_of_le_of_lt hle (hp s a s'' hps)

/-! ### Agreement -/

/-- Two rules do the same in the state `s`, and if they give something they leave fewer than `m`
tokens. -/
def AgreesAt (m : Nat) (p q : Parse α) (s : ParseState) : Prop :=
  p s = q s ∧ ∀ a s', p s = (some a, s') → s'.rest.length < m

/-- Two rules agree wherever fewer than `m` tokens are left, and never leave more than there were. -/
def Agrees (m : Nat) (p q : Parse α) : Prop :=
  ∀ s, s.rest.length < m → AgreesAt (s.rest.length + 1) p q s

namespace AgreesAt
variable {m k : Nat} {p q : Parse α} {f g : α → Parse β}

theorem mono (h : AgreesAt m p q s) (hmk : m ≤ k) : AgreesAt k p q s :=
  ⟨h.1, fun a s' ha => Nat.lt_of_lt_of_le (h.2 a s' ha) hmk⟩

theorem andThen (h : AgreesAt m p q s)
    (hfg : ∀ a s', s'.rest.length < m → AgreesAt k (f a) (g a) s') :
    AgreesAt k (p >>= f) (q >>= g) s := by
  obtain ⟨heq, hlt⟩ := h
  rcases hp : p s with ⟨_ | a, s'⟩
  · refine ⟨?_, fun b s'' hb => ?_⟩
    · rw [run_bind_none hp, run_bind_none (heq ▸ hp)]
    · rw [run_bind_none hp] at hb
      cases hb
  · obtain ⟨hfg, hlt'⟩ := hfg a s' (hlt a s' hp)
    refine ⟨?_, fun b s'' hb => hlt' b s'' ?_⟩
    · rw [run_bind_some hp, run_bind_some (heq ▸ hp), hfg]
    · rwa [run_bind_some hp] at hb

theorem bind (h : AgreesAt m p q s) (hfg : ∀ a, Agrees m (f a) (g a)) :
    AgreesAt m (p >>= f) (q >>= g) s :=
  h.andThen fun a s' hs' => (hfg a s' hs').mono hs'

theorem ite {c : Prop} [Decidable c] {p' q' : Parse α} (h : AgreesAt m p q s)
    (h' : AgreesAt m p' q' s) : AgreesAt m (if c then p else p') (if c then q else q') s := by
  by_cases hc : c
  · rwa [if_pos hc, if_pos hc]
  · rwa [if_neg hc, if_neg hc]

theorem get {f g : ParseState → Parse α} (h : AgreesAt m (f s) (g s) s) :
    AgreesAt m (MonadState.get >>= f) (MonadState.get >>= g) s := h

theorem advance (h : s.kind ≠ .eof) (hs : s.rest.length < m + 1) :
    AgreesAt m Parse.advance Parse.advance s := by
  refine ⟨rfl, fun a s' ha => ?_⟩
  obtain ⟨-, rfl⟩ := Prod.mk.inj ha
  have hlt := ParseState.length_advance_lt h
  omega

theorem of_shortens (h : Shortens p) (hs : s.rest.length < m + 1) : AgreesAt m p p s :=
  ⟨rfl, fun a s' ha => Nat.lt_of_lt_of_le (h s a s' ha) (Nat.le_of_lt_succ hs)⟩

theorem of_none (h : (p s).1 = none) : AgreesAt m p p s := by
  refine ⟨rfl, fun a s' ha => ?_⟩
  rw [ha] at h
  cases h

end AgreesAt

/-- Two rules agree wherever at most `m` tokens are left, and give something only after they have
passed a token. -/
def AgreesPast (m : Nat) (p q : Parse α) : Prop :=
  ∀ s, s.rest.length < m + 1 → AgreesAt s.rest.length p q s

theorem AgreesPast.agrees {m : Nat} {p q : Parse α} (h : AgreesPast m p q) : Agrees m p q :=
  fun s hs => (h s (by omega)).mono (by omega)

namespace Agrees
variable {m : Nat} {p q : Parse α} {f g : α → Parse β}

theorem of_steady (h : Steady p) : Agrees m p p := by
  refine fun s _ => ⟨rfl, fun a s' ha => ?_⟩
  have hle := h.length_le s
  rw [ha] at hle
  exact Nat.lt_succ_of_le hle

theorem pure (a : α) : Agrees m (Pure.pure a) (Pure.pure a) := of_steady fun _ => Keeps.pure

theorem bind (h : Agrees m p q) (hfg : ∀ a, Agrees m (f a) (g a)) :
    Agrees m (p >>= f) (q >>= g) :=
  fun s hs => (h s hs).andThen fun a s' hs' =>
    (hfg a s' (by omega)).mono hs'

theorem ite {c : Prop} [Decidable c] {p' q' : Parse α} (h : Agrees m p q) (h' : Agrees m p' q') :
    Agrees m (if c then p else p') (if c then q else q') :=
  fun s hs => (h s hs).ite (h' s hs)

theorem fueled {p q : Nat → Parse α} (h : ∀ n, Agrees m (p n) (q n)) :
    Agrees m (Parse.fueled p) (Parse.fueled q) :=
  fun s hs => h _ s hs

theorem of_shortens (h : Shortens p) : Agrees m p p :=
  fun _ _ => (AgreesAt.of_shortens h (Nat.lt_succ_self _)).mono (Nat.le_succ _)

end Agrees

/-! ### Expressions -/

theorem moreAt_agrees {m : Nat} {item item' : Parse α} (h : Agrees m item item') (sep : Symbol)
    (n : Nat) : Agrees m (moreAt sep item n) (moreAt sep item' n) := by
  induction n with
  | zero => exact .pure []
  | succ n ih =>
    refine (Agrees.of_steady fun r => (reads_suffix r).eatSign sep).bind fun _ => .ite ?_ (.pure [])
    exact h.bind fun _ => ih.bind fun _ => .pure _

section
variable {m : Nat} {e e' : Parse Expr} (he : Agrees m e e')
include he

theorem rangeAfter_agrees (left : Expr) : Agrees m (rangeAfter e left) (rangeAfter e' left) := by
  refine (Agrees.of_steady fun r => (reads_suffix r).eatWord _).bind fun _ => .ite ?_ ?_
  · exact he.bind fun _ => .pure _
  · refine (Agrees.of_steady fun r => (reads_suffix r).eatWord _).bind fun _ => .ite ?_ ?_
    · exact he.bind fun _ => .pure _
    · exact .of_steady fun r => (reads_suffix r).expected _

theorem argumentsAfter_agrees (base : Ident) :
    Agrees m (argumentsAfter e base) (argumentsAfter e' base) := by
  have hclose : ∀ x : Span → Expr, Agrees m (do return x (← expectSign .rightParen))
      (do return x (← expectSign .rightParen)) :=
    fun x => (Agrees.of_steady fun r => (reads_suffix r).expectSign _).bind fun _ => .pure _
  refine he.bind fun first => (Agrees.of_steady fun _ => Keeps.atDirection).bind fun _ => .ite ?_ ?_
  · exact (rangeAfter_agrees he first).bind fun _ => hclose _
  · refine (Agrees.of_steady fun _ => Keeps.atKind _).bind fun _ => .ite ?_ ?_
    · exact .of_steady fun r => (reads_suffix r).unsupported _
    · exact (Agrees.fueled (moreAt_agrees he _)).bind fun _ => hclose _

theorem nameExpr_agrees (hs : s.rest.length < m + 1) : AgreesAt m (nameExpr e) (nameExpr e') s := by
  have hattribute : ∀ i, Steady (attributeAfter i) := fun i r =>
    Keeps.get.bind fun _ => .ite ((reads_suffix r).unsupported _)
      (.ite ((reads_suffix r).advance.bind fun _ => Keeps.pure) ((reads_suffix r).expected _))
  refine (AgreesAt.of_shortens ident_shortens hs).bind fun i => .ite (.pure _) (.ite (.pure _) ?_)
  refine (Agrees.of_steady fun _ => Keeps.atKind _).bind fun _ =>
    .ite (.of_steady fun r => (reads_suffix r).unsupported _) ?_
  refine (Agrees.of_steady fun r => (reads_suffix r).eatSign _).bind fun _ =>
    .ite (.of_steady (hattribute i)) ?_
  exact (Agrees.of_steady fun r => (reads_suffix r).eatSign _).bind fun _ =>
    .ite (argumentsAfter_agrees he i) (.pure _)

theorem element_agrees : Agrees m (element e) (element e') := by
  refine (Agrees.of_steady fun r => (reads_suffix r).eatWord _).bind fun _ => .ite ?_ ?_
  · refine (Agrees.of_steady fun r => (reads_suffix r).expectSign _).bind fun _ => ?_
    exact he.bind fun _ => .pure _
  · refine he.bind fun _ => (Agrees.of_steady fun r => (reads_suffix r).eatSign _).bind fun _ => .ite ?_ ?_
    · exact he.bind fun _ => .pure _
    · refine (Agrees.of_steady fun _ => Keeps.atKind _).bind fun _ => .ite ?_ (.pure _)
      exact .of_steady fun r => (reads_suffix r).span.bind fun _ hx => (reads_suffix r).fail _ hx

theorem parenExpr_agrees (hs : s.rest.length < m + 1) :
    AgreesAt m (parenExpr e) (parenExpr e') s := by
  have helements : Agrees m (separated .comma (element e)) (separated .comma (element e')) :=
    (element_agrees he).bind fun _ =>
      (Agrees.fueled (moreAt_agrees (element_agrees he) _)).bind fun _ => .pure _
  refine (AgreesAt.of_shortens (expect_shortens (by nofun)) hs).bind fun start => ?_
  refine helements.bind fun elements => (Agrees.of_steady fun r => (reads_suffix r).expectSign _).bind fun _ => ?_
  refine .of_steady fun r => ?_
  split
  · exact Keeps.pure
  · exact Keeps.pure

theorem primary_agrees (hs : s.rest.length < m + 1) : AgreesAt m (primary e) (primary e') s := by
  refine AgreesAt.get ?_
  split
  · rename_i hkind
    refine AgreesAt.get ?_
    split
    · exact (AgreesAt.advance (by simp [hkind]) hs).bind fun _ => .pure _
    · exact .of_none rfl
  · exact .of_none rfl
  iterate 3
    rename_i hkind
    exact (AgreesAt.advance (by simp [hkind]) hs).bind fun _ => .pure _
  · exact nameExpr_agrees he hs
  · exact parenExpr_agrees he hs
  · exact .of_none rfl

end

theorem unary_kind_ne_eof {k : TokenKind} {op : UnaryOp} (h : UnaryOp.ofToken? k = some op) :
    k ≠ .eof := by
  rintro rfl
  cases h

theorem binary_kind_ne_eof {k : TokenKind} {op : BinaryOp} (h : BinaryOp.ofToken? k = some op) :
    k ≠ .eof := by
  rintro rfl
  cases h

theorem operand_agrees {m : Nat} {e e' : Nat → Parse Expr}
    (he : ∀ least, Agrees m (e least) (e' least)) (hs : s.rest.length < m + 1) :
    AgreesAt m (operand e) (operand e') s := by
  refine AgreesAt.get ?_
  split
  · rename_i op hop
    refine (AgreesAt.advance (unary_kind_ne_eof hop) hs).bind fun _ => ?_
    exact (he _).bind fun _ => .pure _
  · exact primary_agrees (he _) hs

/-! ### Operators -/

/-- Goes on after an operand as long as operators with `takes` follow; `rhs` reads the right operand
of an operator. -/
def chain (takes : BinaryOp → Bool) (rhs : BinaryOp → Parse Expr) : Nat → Expr → Parse Expr
  | 0, lhs => return lhs
  | n + 1, lhs => do
    match (BinaryOp.ofToken? (← kind)).filter takes with
    | none => return lhs
    | some op =>
      advance
      let r ← rhs op
      chain takes rhs n (.join op lhs r)

theorem climb_eq_chain (e : Nat → Parse Expr) (least n : Nat) (lhs : Expr) :
    climb e least n lhs = chain (fun op => least ≤ op.bindingPower.1) (fun op => e op.bindingPower.2) n lhs := by
  induction n generalizing lhs with
  | zero => rfl
  | succ n ih =>
    rw [climb, chain]
    congr
    funext k
    cases hop : BinaryOp.ofToken? k with
    | none => rfl
    | some op =>
      by_cases hle : least ≤ op.bindingPower.1
      · simp [Option.filter, hle, Nat.not_lt.2 hle, ih]
      · simp [Option.filter, hle, Nat.lt_of_not_le hle]

/-- The fuel of a chain does not matter if there is more of it than tokens. -/
theorem chain_agrees {takes : BinaryOp → Bool} {rhs rhs' : BinaryOp → Parse Expr} {m n n' : Nat}
    (h : ∀ op, Agrees m (rhs op) (rhs' op)) (lhs : Expr) (hs : s.rest.length < m)
    (hn : s.rest.length < n) (hn' : s.rest.length < n') :
    AgreesAt (s.rest.length + 1) (chain takes rhs n lhs) (chain takes rhs' n' lhs) s := by
  induction n generalizing n' lhs s with
  | zero => omega
  | succ n ih =>
    obtain ⟨n', rfl⟩ : ∃ k, n' = k + 1 := ⟨n' - 1, by omega⟩
    refine AgreesAt.get ?_
    split
    · exact Agrees.pure lhs s hs
    · rename_i op hop
      have hne := binary_kind_ne_eof (Option.filter_eq_some_iff.1 hop).1
      refine (AgreesAt.advance (m := s.rest.length) hne (Nat.lt_succ_self _)).andThen fun _ t ht => ?_
      refine ((h op) t (by omega)).andThen fun r u hu => ?_
      exact (ih _ (by omega) (by omega) (by omega)).mono (by omega)

/-- The fuel of an expression does not matter if there is more of it than tokens. -/
theorem exprAt_agrees (n n' least : Nat) :
    Agrees (min n n') (exprAt n least) (exprAt n' least) := by
  induction n generalizing n' least with
  | zero => intro s hs; omega
  | succ n ih =>
    intro s hs
    obtain ⟨n', rfl⟩ : ∃ k, n' = k + 1 := ⟨n' - 1, by omega⟩
    have he : ∀ least, Agrees s.rest.length (exprAt n least) (exprAt n' least) :=
      fun least t ht => ih n' least t (by omega)
    refine (operand_agrees he (Nat.lt_succ_self _)).andThen fun lhs t ht => ?_
    rw [climb_eq_chain, climb_eq_chain]
    exact (chain_agrees (fun op => he _) lhs ht (by omega) (by omega)).mono (by omega)

end Parse

end HdlLint.Syntax
