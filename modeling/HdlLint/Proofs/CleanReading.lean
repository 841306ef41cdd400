import HdlLint.Proofs.Clauses
import HdlLint.Proofs.ReadUnits

/-!
# Reading without a fault

A rule is clean if from a good state it gives something and comes to a good state again, unless a fault
has been reported (`Clean`). A fault is never taken back, so it is one side of the invariant, and each
rule is followed by `Clean.bind` alone. The lemma of a rule says that it passes tokens outside of clauses
that start no unit, and whole clauses (`Smooth`).
-/

namespace HdlLint.Syntax.Parse
variable {α β γ : Type}

/-! ### Clean rules -/

def Faulty (s : ParseState) : Prop := s.reported ≠ []

theorem reads_faulty : Reads Faulty fun _ => True where
  pass s h := by
    unfold ParseState.advance
    split
    · exact h
    · split
      · exact h
      · exact h
  report _ _ _ _ _ := List.cons_ne_nil _ _
  here _ _ := trivial
  last _ _ := trivial
  cover _ _ _ _ := trivial

/-- From a state with `I` the rule gives something and comes to a state with `J`, unless a fault has been
reported. -/
def Clean (I : ParseState → Prop) (p : Parse α) (J : α → ParseState → Prop) : Prop :=
  ∀ s, Faulty s ∨ I s → Faulty (p s).2 ∨ ∃ a, (p s).1 = some a ∧ J a (p s).2

namespace Clean
variable {I I' : ParseState → Prop} {p : Parse α} {f : α → Parse β} {J J' : α → ParseState → Prop}
  {K : β → ParseState → Prop}

theorem bind (hp : Clean I p J) (hf : ∀ a, Clean (J a) (f a) K) : Clean I (p >>= f) K := by
  intro s hs
  have hps := hp s hs
  rcases hrun : p s with ⟨_ | a, s'⟩
  · rw [hrun] at hps
    rw [run_bind_none hrun]
    rcases hps with hfault | ⟨a, ha, -⟩
    · exact .inl hfault
    · cases ha
  · rw [hrun] at hps
    rw [run_bind_some hrun]
    refine hf a s' (hps.imp_right ?_)
    rintro ⟨b, hb, hJ⟩
    obtain rfl := Option.some.inj hb
    exact hJ

theorem pre (h : Clean I p J) (hI : ∀ s, I' s → I s) : Clean I' p J :=
  fun s hs => h s (hs.imp_right (hI s))

theorem post (h : Clean I p J) (hJ : ∀ a s, J a s → J' a s) : Clean I p J' :=
  fun s hs => (h s hs).imp_right fun ⟨a, ha, hs'⟩ => ⟨a, ha, hJ a _ hs'⟩

/-- A rule that only looks at the state. -/
theorem peek {g : ParseState → α} (h : ∀ s, p s = (some (g s), s)) :
    Clean I p fun a s => I s ∧ a = g s := by
  intro s hs
  rw [h s]
  exact hs.imp_right fun hI => ⟨g s, rfl, hI, rfl⟩

theorem pure {a : α} (h : ∀ s, I s → J a s) : Clean I (Pure.pure a : Parse α) J :=
  fun s hs => hs.imp_right fun hI => ⟨a, rfl, h s hI⟩

theorem ite {c : Prop} [Decidable c] {q : Parse α} (hp : c → Clean I p J) (hq : ¬ c → Clean I q J) :
    Clean I (if c then p else q) J := by
  by_cases hc : c
  · rw [if_pos hc]
    exact hp hc
  · rw [if_neg hc]
    exact hq hc

theorem attempt (h : Clean I p J) : Clean I (Parse.attempt p) fun o s => ∃ a, o = some a ∧ J a s :=
  fun s hs => (h s hs).imp_right fun ⟨a, ha, hJ⟩ => ⟨some a, congrArg some ha, a, rfl, hJ⟩

theorem of_some {a : α} {q : Parse β} (h : Clean (J a) q K) :
    Clean (fun s => ∃ b, some a = some b ∧ J b s) q K := by
  refine h.pre ?_
  rintro s ⟨_, ⟨⟩, hs⟩
  exact hs

/-- Where there must have been a fault, it is enough that it stays. -/
theorem of_not (hp : Keeps Faulty p) (hI : ∀ s, ¬ I s) : Clean I p J :=
  fun s hs => .inl (hp s (hs.resolve_right (hI s))).1

/-- Behind a failure there is a fault, so whatever is skipped, it is as good as any state. -/
theorem of_none {q : Parse β} {r : β → Parse γ} {L : γ → ParseState → Prop} (hq : Keeps Faulty q)
    (hr : ∀ b, Clean I (r b) L) :
    Clean (fun s => ∃ a, (none : Option α) = some a ∧ J a s) (q >>= r) L := by
  have hskip : Clean (fun s => ∃ a, (none : Option α) = some a ∧ J a s) q fun _ => I := by
    refine of_not hq ?_
    rintro s ⟨_, ⟨⟩, -⟩
  exact hskip.bind hr

/-- A rule that looks at the state first, and is then run in this state. -/
theorem get {f : ParseState → Parse α} (h : ∀ s, Clean (fun s' => s' = s ∧ I s) (f s) J) :
    Clean I (MonadState.get >>= f) J :=
  fun s hs => h s s (hs.imp_right fun hI => ⟨rfl, hI⟩)

theorem fail (e : SyntaxError) (span : Span) : Clean I (Parse.fail e span) J :=
  fun _ _ => .inl (List.cons_ne_nil _ _)

theorem expected (what : String) : Clean I (Parse.expected what) J := get fun _ => fail _ _

theorem unsupported (what : String) : Clean I (Parse.unsupported what) J := get fun _ => fail _ _

theorem fueled {p : Nat → Parse α} (h : ∀ n, Clean I (p n) J) : Clean I (Parse.fueled p) J :=
  get fun _ => (h _).pre fun _ hs => hs.1 ▸ hs.2

theorem kind : Clean I Parse.kind fun k s => I s ∧ k = s.kind := peek fun _ => rfl

theorem span : Clean I Parse.span fun _ => I := (peek fun _ => rfl).post fun _ _ h => h.1

theorem lastSpan : Clean I Parse.lastSpan fun x s => I s ∧ x = s.lastSpan := peek fun _ => rfl

theorem atKind (k : TokenKind) : Clean I (Parse.atKind k) fun _ => I :=
  (peek fun _ => rfl).post fun _ _ h => h.1

theorem atDirection : Clean I Parse.atDirection fun _ => I :=
  kind.bind fun _ => pure fun _ h => h.1

theorem atLabel : Clean I Parse.atLabel fun b s =>
    I s ∧ b = (s.kind == .identifier && s.kindAt 1 == .symbol .colon) := peek fun _ => rfl

theorem advance {J : ParseState → Prop} (h : ∀ s, I s → J s.advance) :
    Clean I Parse.advance fun _ => J := by
  intro s hs
  rcases hs with hfault | hI
  · exact .inl (reads_faulty.pass s hfault)
  · exact .inr ⟨(), rfl, h s hI⟩

theorem expect {k : TokenKind} {J : Span → ParseState → Prop}
    (h : ∀ s, I s → s.kind = k → J s.span s.advance) : Clean I (Parse.expect k) J := by
  refine get fun s => ite (fun hk => ?_) fun _ => expected _
  have hadvance : Clean (fun s' => s' = s ∧ I s) Parse.advance fun _ => J s.span := by
    refine advance ?_
    rintro _ ⟨rfl, hI⟩
    exact h _ hI (beq_iff_eq.1 hk)
  exact hadvance.bind fun _ => pure fun _ => id

theorem ident {J : ParseState → Prop} (h : ∀ s, I s → s.kind = .identifier → J s.advance) :
    Clean I Parse.ident fun _ => J := by
  refine get fun s => ite (fun hk => ?_) fun _ => expected _
  have hadvance : Clean (fun s' => s' = s ∧ I s) Parse.advance fun _ => J := by
    refine advance ?_
    rintro _ ⟨rfl, hI⟩
    exact h _ hI (beq_iff_eq.1 hk)
  exact hadvance.bind fun _ => pure fun _ => id

theorem eat {k : TokenKind} {J : ParseState → Prop} (h : ∀ s, I s → s.kind = k → J s.advance) :
    Clean I (Parse.eat k) fun b s => if b then J s else I s ∧ s.kind ≠ k := by
  have hat : Clean I (Parse.atKind k) fun b s => I s ∧ b = (s.kind == k) := peek fun _ => rfl
  refine hat.bind fun b => ite (fun hb => ?_) fun hb => ?_
  · refine (advance ?_).bind fun _ => pure fun s hs => hs
    rintro s ⟨hI, rfl⟩
    exact h s hI (beq_iff_eq.1 hb)
  · refine pure ?_
    rintro s ⟨hI, rfl⟩
    exact ⟨hI, mt beq_iff_eq.2 hb⟩

/-- Skipping passes only tokens at which `stop` does not hold. -/
theorem skipUntil {stop : ParseState → Bool}
    (h : ∀ s, I s → s.kind ≠ .eof → stop s = false → I s.advance) :
    Clean I (Parse.skipUntil stop) fun _ s => I s ∧ (s.kind = .eof ∨ stop s) := by
  have hat : ∀ n, Clean (fun s => I s ∧ s.rest.length < n) (Parse.skipUntilAt stop n)
      fun _ s => I s ∧ (s.kind = .eof ∨ stop s) := by
    intro n
    induction n with
    | zero => exact pure fun s hs => absurd hs.2 (Nat.not_lt_zero _)
    | succ n ih =>
      refine get fun s => ite (fun hend => ?_) fun hgo => ?_
      · refine pure ?_
        rintro _ ⟨rfl, hI, -⟩
        exact ⟨hI, by simpa using hend⟩
      · have hgo : s.kind ≠ .eof ∧ stop s = false := by simpa using hgo
        refine (advance ?_).bind fun _ => ih
        rintro _ ⟨rfl, hI, hlen⟩
        have hlt := ParseState.length_advance_lt hgo.1
        exact ⟨h _ hI hgo.1 hgo.2, by omega⟩
  refine get fun s => (hat s.budget).pre ?_
  rintro _ ⟨rfl, hI⟩
  exact ⟨hI, Nat.lt_succ_self _⟩

end Clean

/-! ### Tokens -/

/-- The rule passes tokens outside of clauses that start no unit, and whole clauses. -/
abbrev Smooth (tokens : List Token) (heads : List Token → Prop) (m : Nat) (p : Parse α) : Prop :=
  Clean (Calm tokens heads m) p fun _ => Calm tokens heads m

section
variable {tokens : List Token} {heads : List Token → Prop} {m : Nat}

theorem Clean.expect_past {k : TokenKind} (hk : k.isPlain) :
    Clean (Calm tokens heads (m + 1)) (Parse.expect k) fun _ => Past k tokens heads m :=
  expect fun _ hs hkind => hs.past_of_isPlain hkind hk

theorem Clean.expect_lt {k : TokenKind} (hk : k.isPlain) :
    Clean (Calm tokens heads (m + 1)) (Parse.expect k) fun _ => Calm tokens heads m :=
  (expect_past hk).post fun _ _ hs => hs.calm (TokenKind.ne_of_isPlain hk rfl)

theorem Clean.ident_lt : Clean (Calm tokens heads (m + 1)) Parse.ident fun _ => Calm tokens heads m :=
  ident fun _ hs hkind => (hs.past_of_isPlain hkind rfl).calm nofun

/-- A word that starts nothing behind the last token, though it may do so elsewhere. -/
theorem Clean.eat_inert {last : TokenKind} {w : Keyword} (hlast : last ≠ .symbol .tick)
    (hw : isInert (some last) (.keyword w)) :
    Clean (Past last tokens heads m) (Parse.eatWord w) fun _ => Calm tokens heads m := by
  refine (Clean.eat (J := Calm tokens heads m) fun s hs hkind => ?_).post fun b s hs => ?_
  · exact hs.calm_advance (hkind ▸ nofun) (hkind ▸ nofun) (hkind ▸ hw)
  · cases b with
    | true => exact hs
    | false => exact hs.1.calm hlast

/-- Passing the token at hand, which was seen to be a plain one. -/
theorem Clean.advance_past {s : ParseState} (hk : s.kind.isPlain) :
    Clean (fun s' => s' = s ∧ Calm tokens heads (m + 1) s) Parse.advance fun _ =>
      Calm tokens heads m := by
  refine advance ?_
  rintro _ ⟨rfl, hs⟩
  exact (hs.past_of_isPlain rfl hk).calm (TokenKind.ne_of_isPlain hk rfl)

namespace Smooth

theorem expect {k : TokenKind} (hk : k.isPlain) : Smooth tokens heads m (Parse.expect k) :=
  (Clean.expect_lt hk).pre fun _ hs => hs.mono (Nat.le_succ m)

theorem expectWord {w : Keyword} (hw : (TokenKind.keyword w).isPlain) :
    Smooth tokens heads m (Parse.expectWord w) :=
  expect hw

theorem expectSign {x : Symbol} (hx : (TokenKind.symbol x).isPlain) :
    Smooth tokens heads m (Parse.expectSign x) :=
  expect hx

theorem eat {k : TokenKind} (hk : k.isPlain) : Smooth tokens heads m (Parse.eat k) := by
  have heat : Clean (Calm tokens heads m) (Parse.eat k) fun b s =>
      if b then Calm tokens heads m s else Calm tokens heads m s ∧ s.kind ≠ k :=
    Clean.eat fun s hs hkind => hs.advance (hkind ▸ hk)
  refine heat.post fun b s hs => ?_
  cases b with
  | true => exact hs
  | false => exact hs.1

theorem eatWord {w : Keyword} (hw : (TokenKind.keyword w).isPlain) :
    Smooth tokens heads m (Parse.eatWord w) :=
  eat hw

theorem eatSign {x : Symbol} (hx : (TokenKind.symbol x).isPlain) :
    Smooth tokens heads m (Parse.eatSign x) :=
  eat hx

theorem ident : Smooth tokens heads m Parse.ident :=
  Clean.ident_lt.pre fun _ hs => hs.mono (Nat.le_succ m)

theorem name : Smooth tokens heads m Parse.name := ident.bind fun _ => .pure fun _ => id

theorem eatName : Smooth tokens heads m Parse.eatName := (eat rfl).bind fun _ => .pure fun _ => id

/-- Passing the token at hand, whose kind was looked at. -/
theorem advance {k : TokenKind} (hk : k.isPlain) :
    Clean (fun s => Calm tokens heads m s ∧ k = s.kind) Parse.advance fun _ => Calm tokens heads m :=
  .advance fun _ hs => hs.1.advance (hs.2 ▸ hk)

theorem moreAt {sep : Symbol} (hsep : (TokenKind.symbol sep).isPlain) {item : Parse α}
    (hitem : Smooth tokens heads m item) (n : Nat) : Smooth tokens heads m (Parse.moreAt sep item n) := by
  induction n with
  | zero => exact .pure fun _ => id
  | succ n ih =>
    refine (eatSign hsep).bind fun _ => .ite (fun _ => ?_) fun _ => .pure fun _ => id
    exact hitem.bind fun _ => ih.bind fun _ => .pure fun _ => id

theorem separated {sep : Symbol} (hsep : (TokenKind.symbol sep).isPlain) {item : Parse α}
    (hitem : Smooth tokens heads m item) : Smooth tokens heads m (Parse.separated sep item) :=
  hitem.bind fun _ => (Clean.fueled (moreAt hsep hitem)).bind fun _ => .pure fun _ => id

theorem names : Smooth tokens heads m Parse.names := separated rfl name

/-! ### Expressions -/

section
variable {expr : Parse Expr} (hexpr : Smooth tokens heads m expr)
include hexpr

theorem rangeAfter (left : Expr) : Smooth tokens heads m (Parse.rangeAfter expr left) := by
  have hright : ∀ d, Smooth tokens heads m (do return (⟨left, d, ← expr⟩ : Range)) :=
    fun _ => hexpr.bind fun _ => .pure fun _ => id
  refine (eatWord rfl).bind fun _ => .ite (fun _ => hright _) fun _ => ?_
  exact (eatWord rfl).bind fun _ => .ite (fun _ => hright _) fun _ => .expected _

omit hexpr in
/-- The name of an attribute may be any word, also one that would start a unit. -/
theorem attributeAfter (base : Ident) :
    Clean (Past (.symbol .tick) tokens heads m) (Parse.attributeAfter base) fun _ =>
      Calm tokens heads m := by
  refine .get fun s' => .ite (fun _ => .unsupported _) fun _ => .ite (fun hword => ?_) fun _ => .expected _
  refine (Clean.advance (J := Calm tokens heads m) ?_).bind fun _ => .pure fun _ => id
  rintro s ⟨rfl, hs⟩
  have heof : s.kind ≠ .eof := by rintro h; rw [h] at hword; cases hword
  have htick : s.kind ≠ .symbol .tick := by rintro h; rw [h] at hword; cases hword
  exact hs.calm_advance heof htick (isInert_of_tick _)

theorem argumentsAfter (base : Ident) : Smooth tokens heads m (Parse.argumentsAfter expr base) := by
  refine hexpr.bind fun first => Clean.atDirection.bind fun _ => .ite (fun _ => ?_) fun _ => ?_
  · exact (rangeAfter hexpr first).bind fun _ => (expectSign rfl).bind fun _ => .pure fun _ => id
  · refine (Clean.atKind _).bind fun _ => .ite (fun _ => .unsupported _) fun _ => ?_
    exact (Clean.fueled (moreAt rfl hexpr)).bind fun _ => (expectSign rfl).bind fun _ => .pure fun _ => id

theorem nameExpr : Clean (Calm tokens heads (m + 1)) (Parse.nameExpr expr) fun _ =>
    Calm tokens heads m := by
  refine Clean.ident_lt.bind fun i => .ite (fun _ => .pure fun _ => id) fun _ =>
    .ite (fun _ => .pure fun _ => id) fun _ => ?_
  refine (Clean.atKind _).bind fun _ => .ite (fun _ => .unsupported _) fun _ => ?_
  have htick : Clean (Calm tokens heads m) (Parse.eatSign .tick) fun b s =>
      if b then Past (.symbol .tick) tokens heads m s
      else Calm tokens heads m s ∧ s.kind ≠ .symbol .tick := by
    refine Clean.eat fun s hs hkind => ?_
    have hinert : ∀ last, isInert last s.kind := fun last => by rw [hkind]; rfl
    have hpast := (hs.mono (Nat.le_succ m)).past (hkind ▸ nofun) hinert
    rwa [hkind] at hpast
  refine htick.bind fun b => .ite (fun hb => ?_) fun hb => ?_
  · subst hb
    exact attributeAfter i
  · rw [Bool.not_eq_true] at hb
    subst hb
    refine ((eatSign rfl).pre fun _ hs => hs.1).bind fun _ => .ite (fun _ => ?_) fun _ => .pure fun _ => id
    exact argumentsAfter hexpr i

theorem element : Smooth tokens heads m (Parse.element expr) := by
  refine (eatWord rfl).bind fun _ => .ite (fun _ => ?_) fun _ => ?_
  · exact (expectSign rfl).bind fun _ => hexpr.bind fun _ => .pure fun _ => id
  · refine hexpr.bind fun _ => (eatSign rfl).bind fun _ => .ite (fun _ => ?_) fun _ => ?_
    · exact hexpr.bind fun _ => .pure fun _ => id
    · exact (Clean.atKind _).bind fun _ =>
        .ite (fun _ => Clean.span.bind fun _ => .fail _ _) fun _ => .pure fun _ => id

theorem parenExpr : Clean (Calm tokens heads (m + 1)) (Parse.parenExpr expr) fun _ =>
    Calm tokens heads m := by
  refine (Clean.expect_lt rfl).bind fun _ => (separated rfl (element hexpr)).bind fun elements =>
    (expectSign rfl).bind fun _ => ?_
  split
  · exact .pure fun _ => id
  · exact .pure fun _ => id

omit hexpr in
theorem intExpr {s : ParseState} (hkind : s.kind = .intLiteral) :
    Clean (fun s' => s' = s ∧ Calm tokens heads (m + 1) s) Parse.intExpr fun _ =>
      Calm tokens heads m := by
  refine .get fun s' => ?_
  split
  · have hadvance : Clean (fun s' => s' = s ∧ Calm tokens heads (m + 1) s) Parse.advance fun _ =>
        Calm tokens heads m := .advance_past (hkind ▸ rfl)
    refine (hadvance.pre ?_).bind fun _ => .pure fun _ => id
    rintro _ ⟨rfl, h⟩
    exact h
  · exact .fail _ _

theorem primary : Clean (Calm tokens heads (m + 1)) (Parse.primary expr) fun _ =>
    Calm tokens heads m := by
  refine .get fun s => ?_
  split
  · rename_i hkind
    exact intExpr hkind
  · exact .unsupported _
  · rename_i hkind
    exact (Clean.advance_past (hkind ▸ rfl)).bind fun _ => .pure fun _ => id
  · rename_i hkind
    exact (Clean.advance_past (hkind ▸ rfl)).bind fun _ => .pure fun _ => id
  · rename_i hkind
    exact (Clean.advance_past (hkind ▸ rfl)).bind fun _ => .pure fun _ => id
  · exact (nameExpr hexpr).pre fun _ hs => hs.1 ▸ hs.2
  · exact (parenExpr hexpr).pre fun _ hs => hs.1 ▸ hs.2
  · exact .expected _

end

theorem unary_isPlain {k : TokenKind} {op : UnaryOp} (h : UnaryOp.ofToken? k = some op) : k.isPlain := by
  unfold UnaryOp.ofToken? at h
  split at h
  iterate 4 rfl
  cases h

theorem binary_isPlain {k : TokenKind} {op : BinaryOp} (h : BinaryOp.ofToken? k = some op) :
    k.isPlain := by
  unfold BinaryOp.ofToken? at h
  split at h
  iterate 22 rfl
  cases h

theorem operand {expr : Nat → Parse Expr} (hexpr : ∀ n, Smooth tokens heads m (expr n)) :
    Clean (Calm tokens heads (m + 1)) (Parse.operand expr) fun _ => Calm tokens heads m := by
  refine .get fun s => ?_
  split
  · rename_i op hop
    exact (Clean.advance_past (unary_isPlain hop)).bind fun _ => (hexpr _).bind fun _ => .pure fun _ => id
  · exact (primary (hexpr _)).pre fun _ hs => hs.1 ▸ hs.2

theorem climb {expr : Nat → Parse Expr} (hexpr : ∀ n, Smooth tokens heads m (expr n)) (least n : Nat)
    (lhs : Expr) : Smooth tokens heads m (Parse.climb expr least n lhs) := by
  induction n generalizing lhs with
  | zero => exact .pure fun _ => id
  | succ n ih =>
    refine Clean.kind.bind fun k => ?_
    split
    · exact .pure fun _ hs => hs.1
    · rename_i op hop
      refine .ite (fun _ => .pure fun _ hs => hs.1) fun _ => ?_
      exact (advance (binary_isPlain hop)).bind fun _ => (hexpr _).bind fun _ => ih _

/-- There is fuel for every token that is left, so reading never stops short without a fault. -/
theorem exprAt (n least : Nat) : Smooth tokens heads n (Parse.exprAt n least) := by
  induction n generalizing least with
  | zero => exact fun s hs => .inl (hs.resolve_right fun hcalm => Nat.not_lt_zero _ hcalm.length_lt)
  | succ n ih =>
    have hclimb := (operand ih).bind fun lhs => climb ih least n lhs
    exact hclimb.post fun _ _ hs => hs.mono (Nat.le_succ n)

theorem expr : Smooth tokens heads m Parse.expr := by
  refine .get fun s => ?_
  intro s' hs
  rcases hs with hfault | ⟨rfl, hs⟩
  · exact .inl (reads_faulty.exprAt _ _ s' hfault).1
  · have hbudget : Calm tokens heads s'.budget s' :=
      ⟨⟨hs.tokens_eq, hs.heads_passed, Nat.lt_succ_self _⟩, hs.ready⟩
    refine (exprAt _ _ s' (.inr hbudget)).imp_right ?_
    rintro ⟨e, he, hcalm⟩
    exact ⟨e, he, hcalm.mono hs.length_lt⟩

theorem range : Smooth tokens heads m Parse.range := expr.bind fun left => rangeAfter expr left

end Smooth

/-! ### Clauses -/

/-- Skipping past a semicolon keeps what every other token keeps. -/
theorem Clean.skipSentence {I J : ParseState → Prop}
    (hstep : ∀ s, I s → s.kind ≠ .eof → s.kind ≠ .symbol .semicolon → I s.advance)
    (hstop : ∀ s, I s → s.kind = .symbol .semicolon → J s.advance)
    (heof : ∀ s, I s → s.kind = .eof → J s) :
    Clean I Parse.skipSentence fun _ => J := by
  refine (skipUntil fun s hs hne hstop => hstep s hs hne (beq_eq_false_iff_ne.1 hstop)).bind fun _ => ?_
  refine (eat fun s hs hkind => hstop s hs.1 hkind).bind fun b => .pure fun s hs => ?_
  cases b with
  | true => exact hs
  | false =>
    obtain ⟨⟨hI, hend⟩, hne⟩ := hs
    exact heof s hI (hend.resolve_right fun hstop => hne (beq_iff_eq.1 hstop))

/-- A delay is passed over up to a token that ends it, which is left at hand. -/
theorem Smooth.skipDelay : Smooth tokens heads m Parse.skipDelay := by
  have hopen : ∀ s, Calm tokens heads m s → s.kind = .keyword .kwAfter →
      Course tokens heads m s.advance ∧ openClause s.advance.passed = some .delay := by
    intro s hs hkind
    obtain ⟨hcourse, -, hnext⟩ := hs.toCourse.advance (hkind ▸ nofun) (.inl (by rw [hkind]; rfl))
    refine ⟨hcourse, hnext.trans ?_⟩
    rcases hs.ready with heof | ⟨hnone, htick⟩ | ⟨-, hends⟩
    · rw [hkind] at heof
      cases heof
    · rw [hnone, hkind]
      exact if_neg htick
    · rw [hkind] at hends
      cases hends
  have heat : Clean (Calm tokens heads m) (Parse.eatWord .kwAfter) fun b s =>
      if b then Course tokens heads m s ∧ openClause s.passed = some .delay
      else Calm tokens heads m s ∧ s.kind ≠ .keyword .kwAfter := Clean.eat hopen
  refine heat.bind fun b => .ite (fun hb => ?_) fun hb => ?_
  · subst hb
    refine (Clean.skipUntil ?_).post ?_
    · rintro s ⟨hcourse, hdelay⟩ hne hstop
      obtain ⟨hcourse', -, hnext⟩ := hcourse.advance hne (.inr (by rw [hdelay]; nofun))
      refine ⟨hcourse', ?_⟩
      rw [Clause.endsDelay_eq] at hstop
      rw [hnext, hdelay]
      exact if_neg (Bool.eq_false_iff.1 hstop)
    · rintro - s ⟨⟨hcourse, hdelay⟩, hend⟩
      refine ⟨hcourse, hend.imp_right fun hstop => .inr ⟨hdelay, ?_⟩⟩
      rwa [Clause.endsDelay_eq] at hstop
  · rw [Bool.not_eq_true] at hb
    subst hb
    exact .pure fun s hs => hs.1

/-- Inside a clause that only a semicolon closes. -/
theorem Clean.closeClause {c : Clause} (hnext : ∀ last k, Clause.next last (some c) k =
    if k = .symbol .semicolon then none else some c) {Opens : ParseState → Prop}
    (hopens : ∀ s, Course tokens heads m s → Opens s → s.kind ≠ .eof ∧ s.kind ≠ .symbol .semicolon ∧
      Course tokens heads m s.advance ∧ openClause s.advance.passed = some c) :
    Clean (fun s => Course tokens heads m s ∧ (Opens s ∨ openClause s.passed = some c)) Parse.skipSentence
      fun _ => Fresh tokens heads m := by
  refine skipSentence ?_ ?_ fun s hs heof => ⟨hs.1, .inl heof⟩
  · rintro s ⟨hcourse, hopen | hopen⟩ hne hstop
    · obtain ⟨-, -, hcourse', hopen'⟩ := hopens s hcourse hopen
      exact ⟨hcourse', .inr hopen'⟩
    · obtain ⟨hcourse', -, hopen'⟩ := hcourse.advance hne (.inr (by rw [hopen]; nofun))
      rw [hopen, hnext, if_neg hstop] at hopen'
      exact ⟨hcourse', .inr hopen'⟩
  · rintro s ⟨hcourse, hopen | hopen⟩ hstop
    · exact absurd hstop (hopens s hcourse hopen).2.1
    · obtain ⟨hcourse', hlast, hopen'⟩ := hcourse.advance (hstop ▸ nofun) (.inr (by rw [hopen]; nofun))
      rw [hopen, hnext, if_pos hstop] at hopen'
      rw [hstop] at hlast
      exact hcourse'.fresh hopen' hlast rfl

/-- A context clause is passed over up to its semicolon, or to the end of the text. -/
theorem Clean.contextClause : Clean
    (fun s => Fresh tokens heads m s ∧ (s.kind = .keyword .kwLibrary ∨ s.kind = .keyword .kwUse))
    Parse.skipSentence fun _ => Fresh tokens heads m := by
  have hopens : ∀ s, Course tokens heads m s → (Fresh tokens heads m s ∧
      (s.kind = .keyword .kwLibrary ∨ s.kind = .keyword .kwUse)) → s.kind ≠ .eof ∧
      s.kind ≠ .symbol .semicolon ∧ Course tokens heads m s.advance ∧
      openClause s.advance.passed = some .context := by
    rintro s hcourse ⟨hfresh, hkind⟩
    have hne : s.kind ≠ .eof := by rcases hkind with h | h <;> rw [h] <;> nofun
    have hsemicolon : s.kind ≠ .symbol .semicolon := by rcases hkind with h | h <;> rw [h] <;> nofun
    have hhead : isUnitHead (lastKind s.passed) s.kind = false := by
      rcases hkind with h | h <;> rw [h] <;> rfl
    obtain ⟨hnone, hlast⟩ := hfresh.ready.resolve_left hne
    obtain ⟨hcourse', -, hopen⟩ := hcourse.advance hne (.inl hhead)
    have htick := ne_of_isFresh hlast (k := .symbol .tick) rfl
    refine ⟨hne, hsemicolon, hcourse', hopen.trans ?_⟩
    rcases hkind with h | h <;> rw [hnone, h] <;> exact if_neg htick
  exact (closeClause (fun _ _ => rfl) hopens).pre fun s hs => ⟨hs.1.toCourse, .inl hs⟩

/-- Inside a component declaration, and not between the two words `end component`. -/
def InComponent (s : ParseState) : Prop :=
  openClause s.passed = some .component ∧
    (lastKind s.passed = some (.keyword .kwEnd) → s.kind ≠ .keyword .kwComponent)

/-- A component declaration is passed over up to the semicolon behind `end component`. -/
theorem Clean.componentClause : Clean
    (fun s => Fresh tokens heads m s ∧ s.kind = .keyword .kwComponent)
    (Parse.skipPastEnd .kwComponent) fun _ => Fresh tokens heads m := by
  have hskip : Clean (fun s => Course tokens heads m s ∧
      ((Fresh tokens heads m s ∧ s.kind = .keyword .kwComponent) ∨ InComponent s))
      (Parse.skipUntil fun s => s.kind == .keyword .kwEnd && s.kindAt 1 == .keyword .kwComponent) fun _ s =>
        Course tokens heads m s ∧
          ((Fresh tokens heads m s ∧ s.kind = .keyword .kwComponent) ∨ InComponent s) ∧
          (s.kind = .eof ∨ s.kind = .keyword .kwEnd ∧ s.kindAt 1 = .keyword .kwComponent) := by
    refine (skipUntil ?_).post fun _ s hs => ⟨hs.1.1, hs.1.2, hs.2.imp_right fun h => by simpa using h⟩
    rintro s ⟨hcourse, ⟨hfresh, hkind⟩ | ⟨hopen, hinside⟩⟩ hne hstop
    · obtain ⟨hnone, hlast⟩ := hfresh.ready.resolve_left hne
      obtain ⟨hcourse', hlast', hopen'⟩ := hcourse.advance hne (.inl (by rw [hkind]; rfl))
      have htick := ne_of_isFresh hlast (k := .symbol .tick) rfl
      have hcolon := ne_of_isFresh hlast (k := .symbol .colon) rfl
      refine ⟨hcourse', .inr ⟨?_, fun hend => ?_⟩⟩
      · rw [hopen', hnone, hkind]
        exact if_neg (not_or.2 ⟨htick, hcolon⟩)
      · rw [hlast', hkind] at hend
        cases hend
    · obtain ⟨hcourse', hlast', hopen'⟩ := hcourse.advance hne (.inr (by rw [hopen]; nofun))
      refine ⟨hcourse', .inr ⟨?_, fun hend => ?_⟩⟩
      · rw [hopen', hopen]
        exact if_neg fun h => hinside h.1 h.2
      · rw [hlast'] at hend
        rw [ParseState.kind_advance hne]
        simpa [Option.some.inj hend] using hstop
  have hclose : ∀ s, Course tokens heads m s → (openClause s.passed = some .component ∧
      lastKind s.passed = some (.keyword .kwEnd) ∧ s.kind = .keyword .kwComponent) → s.kind ≠ .eof ∧
      s.kind ≠ .symbol .semicolon ∧ Course tokens heads m s.advance ∧
      openClause s.advance.passed = some .closing := by
    rintro s hcourse ⟨hopen, hlast, hkind⟩
    have hne : s.kind ≠ .eof := by rw [hkind]; nofun
    obtain ⟨hcourse', -, hopen'⟩ := hcourse.advance hne (.inr (by rw [hopen]; nofun))
    refine ⟨hne, by rw [hkind]; nofun, hcourse', hopen'.trans ?_⟩
    rw [hopen]
    exact if_pos ⟨hlast, hkind⟩
  refine (hskip.pre fun s hs => ⟨hs.1.toCourse, .inl hs⟩).bind fun _ => .get fun s => ?_
  refine .ite (fun heof => .pure ?_) fun hne => ?_
  · rintro _ ⟨rfl, hcourse, -, -⟩
    exact ⟨hcourse, .inl (beq_iff_eq.1 heof)⟩
  · refine (Clean.advance ?_).bind fun _ => closeClause (fun _ _ => rfl) hclose
    rintro s ⟨rfl, hcourse, hinside, hend⟩
    have hne := mt beq_iff_eq.2 hne
    obtain ⟨hkind, hkindAt⟩ := hend.resolve_left hne
    rcases hinside with ⟨-, hcomponent⟩ | ⟨hopen, -⟩
    · rw [hkind] at hcomponent
      cases hcomponent
    · obtain ⟨hcourse', hlast, hopen'⟩ := hcourse.advance hne (.inr (by rw [hopen]; nofun))
      refine ⟨hcourse', .inl ⟨?_, hlast.trans (congrArg some hkind), ?_⟩⟩
      · rw [hopen', hopen, hkind]
        exact if_neg fun h => by cases h.2
      · rw [ParseState.kind_advance hne, hkindAt]

/-- The semicolon behind which a declaration or a unit may start. -/
theorem Clean.semicolon : Clean (Calm tokens heads m) (Parse.expectSign .semicolon) fun _ =>
    Fresh tokens heads m :=
  ((Clean.expect_past rfl).post fun _ _ hs => hs.fresh rfl).pre fun _ hs => hs.mono (Nat.le_succ m)

/-! ### Declarations -/

/-- The types of generics, which are told by their text and not by their kind. -/
def genericTypes : List String := ["integer", "natural", "positive", "boolean"]

namespace Smooth

theorem subtype : Smooth tokens heads m Parse.subtype := by
  have hwhole : ∀ (start : Span) (mark : String) (bounds : Option Range), Smooth tokens heads m (do
      return (⟨mark, bounds, start.cover (← Parse.lastSpan)⟩ : Subtype)) :=
    fun _ _ _ => Clean.lastSpan.bind fun _ => .pure fun _ hs => hs.1
  refine Clean.span.bind fun start => name.bind fun mark => (eatSign rfl).bind fun _ =>
    .ite (fun _ => ?_) fun _ => ?_
  · exact range.bind fun r => (expectSign rfl).bind fun _ => hwhole start mark (some r)
  · refine (eatWord rfl).bind fun _ => .ite (fun _ => ?_) fun _ => hwhole start mark none
    exact range.bind fun r => hwhole start mark (some r)

theorem initial : Smooth tokens heads m Parse.initial :=
  (eatSign rfl).bind fun _ => .ite (fun _ => expr.bind fun _ => .pure fun _ => id) fun _ => .pure fun _ => id

theorem mode : Smooth tokens heads m Parse.mode := by
  refine Clean.kind.bind fun k => ?_
  split
  iterate 4 exact (advance rfl).bind fun _ => .pure fun _ => id
  · exact .pure fun _ hs => hs.1

theorem portGroup : Smooth tokens heads m Parse.portGroup :=
  (eatWord rfl).bind fun _ => Clean.span.bind fun _ => names.bind fun _ => (expectSign rfl).bind fun _ =>
    mode.bind fun _ => subtype.bind fun _ => initial.bind fun _ => Clean.lastSpan.bind fun _ =>
      .pure fun _ hs => hs.1

theorem interface {word : Keyword} (hword : (TokenKind.keyword word).isPlain) {group : Parse (List α)}
    (hgroup : Smooth tokens heads m group) : Smooth tokens heads m (Parse.interface word group) :=
  (expectWord hword).bind fun _ => (expectSign rfl).bind fun _ => (separated rfl hgroup).bind fun _ =>
    (expectSign rfl).bind fun _ => (expectSign rfl).bind fun _ => .pure fun _ => id

theorem ports : Smooth tokens heads m Parse.ports := interface rfl portGroup

section
variable (hplain : ∀ t ∈ tokens, Ascii.lower t.text ∈ genericTypes → t.kind.isPlain)
include hplain

theorem genericType : Smooth tokens heads m Parse.genericType := by
  refine .get fun s => ?_
  have hadvance : ∀ type : GenericType, Ascii.lower s.text ∈ genericTypes →
      Clean (fun s' => s' = s ∧ Calm tokens heads m s)
        (do Parse.advance; return type) fun _ => Calm tokens heads m := by
    intro type htext
    refine (Clean.advance (J := Calm tokens heads m) ?_).bind fun _ => .pure fun _ => id
    rintro s ⟨rfl, hs⟩
    by_cases heof : s.kind = .eof
    · rwa [ParseState.advance_of_eof heof]
    · obtain ⟨t, ts, hrest, ht⟩ := ParseState.exists_rest_of_kind heof
      have hmem : t ∈ tokens := hs.tokens_eq ▸ List.mem_append_right _ (hrest ▸ List.mem_cons_self)
      have htext' : s.text = t.text := by rw [ParseState.text, ParseState.token?, hrest]; rfl
      exact hs.advance (ht ▸ hplain t hmem (htext' ▸ htext))
  split
  · rename_i htext
    exact hadvance _ (htext ▸ by decide)
  · rename_i htext
    exact hadvance _ (htext ▸ by decide)
  · rename_i htext
    exact hadvance _ (htext ▸ by decide)
  · rename_i htext
    exact hadvance _ (htext ▸ by decide)
  · exact .ite (fun _ => .unsupported _) fun _ => .expected _

theorem genericGroup : Smooth tokens heads m Parse.genericGroup := by
  have hrest : ∀ (ns : List String) (type : GenericType) (start : Span), Smooth tokens heads m (do
      let default ← Parse.initial
      let whole := start.cover (← Parse.lastSpan)
      return ns.map fun n => (⟨n, type, default, whole⟩ : Generic)) :=
    fun _ _ _ => initial.bind fun _ => Clean.lastSpan.bind fun _ => .pure fun _ hs => hs.1
  refine (eatWord rfl).bind fun _ => Clean.span.bind fun start => names.bind fun ns =>
    (expectSign rfl).bind fun _ => (genericType hplain).bind fun type => (eatWord rfl).bind fun _ =>
      .ite (fun _ => range.bind fun _ => hrest ns type start) fun _ => hrest ns type start

theorem generics : Smooth tokens heads m Parse.generics := interface rfl (genericGroup hplain)

end

theorem signalDecl (start : Span) :
    Clean (Calm tokens heads m) (Parse.signalDecl start) fun _ => Fresh tokens heads m :=
  names.bind fun _ => (expectSign rfl).bind fun _ => subtype.bind fun _ => initial.bind fun _ =>
    Clean.semicolon.bind fun _ => Clean.lastSpan.bind fun _ => .pure fun _ hs => hs.1

theorem constantDecl (start : Span) :
    Clean (Calm tokens heads m) (Parse.constantDecl start) fun _ => Fresh tokens heads m :=
  names.bind fun _ => (expectSign rfl).bind fun _ => subtype.bind fun _ => (expectSign rfl).bind fun _ =>
    expr.bind fun _ => Clean.semicolon.bind fun _ => Clean.lastSpan.bind fun _ => .pure fun _ hs => hs.1

theorem enumerationDecl (start : Span) :
    Clean (Calm tokens heads m) (Parse.enumerationDecl start) fun _ => Fresh tokens heads m := by
  refine name.bind fun _ => (expectWord rfl).bind fun _ => (eatSign rfl).bind fun _ =>
    .ite (fun _ => ?_) fun _ => .unsupported _
  exact names.bind fun _ => (expectSign rfl).bind fun _ => Clean.semicolon.bind fun _ =>
    Clean.lastSpan.bind fun _ => .pure fun _ hs => hs.1

end Smooth

theorem Clean.decl : Clean (Fresh tokens heads m) Parse.decl fun _ => Fresh tokens heads m := by
  refine .get fun s => ?_
  have hadvance : s.kind.isPlain → Clean (fun s' => s' = s ∧ Fresh tokens heads m s) Parse.advance fun _ =>
      Calm tokens heads m := by
    intro hk
    refine .advance ?_
    rintro _ ⟨rfl, hs⟩
    exact hs.calm.advance hk
  split
  · rename_i hkind
    exact (hadvance (hkind ▸ rfl)).bind fun _ => Smooth.signalDecl _
  · rename_i hkind
    exact (hadvance (hkind ▸ rfl)).bind fun _ => Smooth.constantDecl _
  · rename_i hkind
    exact (hadvance (hkind ▸ rfl)).bind fun _ => Smooth.enumerationDecl _
  · rename_i hkind
    refine (componentClause.pre ?_).bind fun _ => .pure fun _ => id
    rintro _ ⟨rfl, hs⟩
    exact ⟨hs, hkind⟩
  · exact .unsupported _
  · exact .expected _

theorem Clean.decls : Clean (Fresh tokens heads m) Parse.decls fun _ => Fresh tokens heads m := by
  refine .fueled fun n => ?_
  induction n with
  | zero => exact .pure fun _ => id
  | succ n ih =>
    refine .get fun s => .ite (fun _ => .pure fun _ hs => hs.1 ▸ hs.2) fun _ => ?_
    refine (Clean.decl.attempt.pre fun _ hs => hs.1 ▸ hs.2).bind fun o => ?_
    split
    · exact (of_some (J := fun _ => Fresh tokens heads m) ih).bind fun _ => .pure fun _ => id
    · exact of_none reads_faulty.skipSentence fun _ => ih

namespace Smooth

/-! ### Statements of a process -/

theorem target : Smooth tokens heads m Parse.target := by
  refine ident.bind fun i => (eatSign rfl).bind fun _ => .ite (fun _ => ?_) fun _ => .pure fun _ => id
  refine expr.bind fun first => Clean.atDirection.bind fun _ => .ite (fun _ => ?_) fun _ => ?_
  · exact (rangeAfter expr first).bind fun _ => (expectSign rfl).bind fun _ => .pure fun _ => id
  · exact (expectSign rfl).bind fun _ => .pure fun _ => id

theorem delayedValue : Smooth tokens heads m Parse.delayedValue :=
  Clean.span.bind fun _ => expr.bind fun _ => skipDelay.bind fun _ => Clean.lastSpan.bind fun _ =>
    .pure fun _ hs => hs.1

theorem alternativesAt (target : Target) (n : Nat) (v : Expr × Span) :
    Smooth tokens heads m (Parse.alternativesAt target n v) := by
  induction n generalizing v with
  | zero => exact .pure fun _ => id
  | succ n ih =>
    refine (eatWord rfl).bind fun _ => .ite (fun _ => ?_) fun _ => .pure fun _ => id
    refine expr.bind fun _ => (eatWord rfl).bind fun _ => .ite (fun _ => ?_) fun _ => .pure fun _ => id
    exact delayedValue.bind fun w => (ih w).bind fun _ => .pure fun _ => id

theorem assignAfter (target : Target) (start : Span) :
    Smooth tokens heads m (Parse.assignAfter target start) := by
  refine delayedValue.bind fun v => (Clean.atKind _).bind fun _ => .ite (fun _ => ?_) fun _ => ?_
  · exact (Clean.fueled fun n => alternativesAt target n _).bind fun _ => (expectSign rfl).bind fun _ =>
      Clean.lastSpan.bind fun _ => .pure fun _ hs => hs.1
  · exact (expectSign rfl).bind fun _ => Clean.lastSpan.bind fun _ => .pure fun _ hs => hs.1

theorem choice : Smooth tokens heads m Parse.choice := by
  refine expr.bind fun _ => Clean.atDirection.bind fun _ => .ite (fun _ => .unsupported _) fun _ => ?_
  exact (Clean.atKind _).bind fun _ => .ite (fun _ => .unsupported _) fun _ => .pure fun _ => id

theorem choices : Smooth tokens heads m Parse.choices := separated rfl choice

theorem blockAt {stmt : Parse Stmt} (hstmt : Smooth tokens heads m stmt) (n : Nat) :
    Smooth tokens heads m (Parse.blockAt stmt n) := by
  induction n with
  | zero => exact .pure fun _ => id
  | succ n ih =>
    refine Clean.kind.bind fun _ => .ite (fun _ => .pure fun _ hs => hs.1) fun _ => ?_
    refine (hstmt.attempt.pre fun _ hs => hs.1).bind fun o => ?_
    split
    · exact (Clean.of_some (J := fun _ => Calm tokens heads m) ih).bind fun _ => .pure fun _ => id
    · exact .of_none reads_faulty.skipSentence fun _ => ih

section
variable {block : Parse (List Stmt)} (hblock : Smooth tokens heads m block)
include hblock

theorem branchesAt (n : Nat) : Smooth tokens heads m (Parse.branchesAt block n) := by
  induction n with
  | zero => exact .pure fun _ => id
  | succ n ih =>
    refine expr.bind fun _ => (expectWord rfl).bind fun _ => hblock.bind fun _ => (eatWord rfl).bind fun _ =>
      .ite (fun _ => ?_) fun _ => .pure fun _ => id
    exact ih.bind fun _ => .pure fun _ => id

theorem ifStmt : Smooth tokens heads m (Parse.ifStmt block) := by
  refine (expectWord rfl).bind fun start => (Clean.fueled (branchesAt hblock)).bind fun branches =>
    (eatWord rfl).bind fun _ => ?_
  have hend : ∀ otherwise : Option (List Stmt), Smooth tokens heads m (do
      let _ ← Parse.expectWord .kwEnd
      let _ ← Parse.expectWord .kwIf
      Parse.eatName
      let _ ← Parse.expectSign .semicolon
      return Stmt.ifs branches otherwise (start.cover (← Parse.lastSpan))) :=
    fun _ => (expectWord rfl).bind fun _ => (expectWord rfl).bind fun _ => eatName.bind fun _ =>
      (expectSign rfl).bind fun _ => Clean.lastSpan.bind fun _ => .pure fun _ hs => hs.1
  exact .ite (fun _ => hblock.bind fun b => hend (some b)) fun _ => hend none

theorem armsAt (n : Nat) (others : Option (List Stmt)) :
    Smooth tokens heads m (Parse.armsAt block n others) := by
  induction n generalizing others with
  | zero => exact .pure fun _ => id
  | succ n ih =>
    refine Clean.span.bind fun _ => (eatWord rfl).bind fun _ => .ite (fun _ => ?_) fun _ => .pure fun _ => id
    refine (eatWord rfl).bind fun _ => .ite (fun _ => ?_) fun _ => ?_
    · exact (expectSign rfl).bind fun _ => hblock.bind fun b => ih (some b)
    · exact choices.bind fun _ => (expectSign rfl).bind fun _ => hblock.bind fun _ =>
        Clean.lastSpan.bind fun _ => ((ih others).pre fun _ hs => hs.1).bind fun _ => .pure fun _ => id

theorem caseStmt : Smooth tokens heads m (Parse.caseStmt block) :=
  (expectWord rfl).bind fun _ => expr.bind fun _ => (expectWord rfl).bind fun _ =>
    (Clean.fueled fun n => armsAt hblock n none).bind fun _ => (expectWord rfl).bind fun _ =>
      (expectWord rfl).bind fun _ => eatName.bind fun _ => (expectSign rfl).bind fun _ =>
        Clean.lastSpan.bind fun _ => .pure fun _ hs => hs.1

omit hblock in
theorem assignStmt : Smooth tokens heads m Parse.assignStmt := by
  refine Clean.span.bind fun start => target.bind fun t => Clean.kind.bind fun k => ?_
  split
  · exact (advance rfl).bind fun _ => assignAfter t start
  · exact .unsupported _
  · exact .expected _

omit hblock in
theorem nullStmt : Smooth tokens heads m Parse.nullStmt :=
  (expectWord rfl).bind fun _ => (expectSign rfl).bind fun _ => Clean.lastSpan.bind fun _ =>
    .pure fun _ hs => hs.1

omit hblock in
theorem skipLabel : Smooth tokens heads m Parse.skipLabel := by
  refine Clean.atLabel.bind fun b => .ite (fun hb => ?_) fun _ => .pure fun _ hs => hs.1
  refine (Clean.advance (J := fun s => Calm tokens heads m s ∧ .symbol .colon = s.kind) ?_).bind
    fun _ => advance rfl
  rintro s ⟨hs, rfl⟩
  rw [Bool.and_eq_true, beq_iff_eq, beq_iff_eq] at hb
  exact hs.name_then hb.1 hb.2

theorem stmtOf : Smooth tokens heads m (Parse.stmtOf block) := by
  refine skipLabel.bind fun _ => Clean.kind.bind fun k => ?_
  split
  · exact (ifStmt hblock).pre fun _ hs => hs.1
  · exact (caseStmt hblock).pre fun _ hs => hs.1
  · exact nullStmt.pre fun _ hs => hs.1
  · exact assignStmt.pre fun _ hs => hs.1
  · exact .unsupported _
  · exact .unsupported _
  · exact .expected _

end

theorem nestedBlockAt (n : Nat) : Smooth tokens heads m (Parse.nestedBlockAt n) := by
  induction n with
  | zero => exact .pure fun _ => id
  | succ n ih => exact .fueled (blockAt (stmtOf ih))

theorem block : Smooth tokens heads m Parse.block := .fueled nestedBlockAt

/-! ### Statements of an architecture -/

theorem sensitivity : Smooth tokens heads m Parse.sensitivity := by
  refine (eatSign rfl).bind fun _ => .ite (fun _ => ?_) fun _ => .pure fun _ => id
  refine (eatWord rfl).bind fun _ => .ite (fun _ => ?_) fun _ => ?_
  · exact (expectSign rfl).bind fun _ => .pure fun _ => id
  · exact (separated rfl ident).bind fun _ => (expectSign rfl).bind fun _ => .pure fun _ => id

theorem beginProcess : Smooth tokens heads m Parse.beginProcess := by
  refine Clean.kind.bind fun k => ?_
  split
  · exact advance rfl
  iterate 4 exact .unsupported _
  · exact .expected _

theorem process (label : Option String) (start : Span) :
    Smooth tokens heads m (Parse.process label start) :=
  (expectWord rfl).bind fun _ => sensitivity.bind fun _ => (eatWord rfl).bind fun _ =>
    beginProcess.bind fun _ => block.bind fun _ => (expectWord rfl).bind fun _ =>
      (expectWord rfl).bind fun _ => eatName.bind fun _ => (expectSign rfl).bind fun _ =>
        Clean.lastSpan.bind fun _ => .pure fun _ hs => hs.1

theorem association : Smooth tokens heads m Parse.association := by
  refine .get fun s => ?_
  have hwhole : ∀ (formal : Option Ident) (actual : Actual), Smooth tokens heads m (do
      return (⟨formal, actual, s.span.cover (← Parse.lastSpan)⟩ : Association)) :=
    fun _ _ => Clean.lastSpan.bind fun _ => .pure fun _ hs => hs.1
  have hactual : ∀ formal : Option Ident, Smooth tokens heads m (do
      let actual ← if ← Parse.eatWord .kwOpen then Pure.pure Actual.leftOpen
        else Pure.pure (Actual.expr (← Parse.expr))
      return (⟨formal, actual, s.span.cover (← Parse.lastSpan)⟩ : Association)) := by
    intro formal
    refine (eatWord rfl).bind fun _ => .ite (fun _ => hwhole formal .leftOpen) fun _ => ?_
    exact expr.bind fun e => hwhole formal (.expr e)
  refine .ite (fun hnamed => ?_) fun _ => (hactual none).pre fun _ hs => hs.1 ▸ hs.2
  rw [Bool.and_eq_true, beq_iff_eq, beq_iff_eq] at hnamed
  refine (Clean.ident (J := fun s => Calm tokens heads m s ∧ .symbol .arrow = s.kind) ?_).bind fun i =>
    (advance rfl).bind fun _ => hactual (some i)
  rintro _ ⟨rfl, hs⟩ -
  exact hs.name_then hnamed.1 hnamed.2

theorem mapClause {word : Keyword} (hword : (TokenKind.keyword word).isPlain) :
    Smooth tokens heads m (Parse.mapClause word) := by
  refine (eatWord hword).bind fun _ => .ite (fun _ => ?_) fun _ => .pure fun _ => id
  exact (expectWord rfl).bind fun _ => (expectSign rfl).bind fun _ =>
    (separated rfl association).bind fun _ => (expectSign rfl).bind fun _ => .pure fun _ => id

theorem instanceAfter (label entity : String) (architecture : Option String) (start : Span) :
    Smooth tokens heads m (Parse.instanceAfter label entity architecture start) :=
  (mapClause rfl).bind fun _ => (mapClause rfl).bind fun _ => (expectSign rfl).bind fun _ =>
    Clean.lastSpan.bind fun _ => .pure fun _ hs => hs.1

theorem selectedAt (target : Target) (n : Nat) (others : Option (List Stmt)) :
    Smooth tokens heads m (Parse.selectedAt target n others) := by
  induction n generalizing others with
  | zero => exact .pure fun _ => id
  | succ n ih =>
    refine Clean.span.bind fun _ => delayedValue.bind fun _ => (expectWord rfl).bind fun _ =>
      (eatWord rfl).bind fun _ => .ite (fun _ => ?_) fun _ => ?_
    · exact (eatSign rfl).bind fun _ => .ite (fun _ => ih _) fun _ => .pure fun _ => id
    · refine choices.bind fun _ => Clean.lastSpan.bind fun _ =>
        ((eatSign rfl).pre fun _ hs => hs.1).bind fun _ => .ite (fun _ => ?_) fun _ => .pure fun _ => id
      exact (ih _).bind fun _ => .pure fun _ => id

theorem selectedAssign (label : Option String) (start : Span) :
    Smooth tokens heads m (Parse.selectedAssign label start) :=
  (expectWord rfl).bind fun _ => expr.bind fun _ => (expectWord rfl).bind fun _ => target.bind fun t =>
    (expectSign rfl).bind fun _ => (Clean.fueled fun n => selectedAt t n none).bind fun _ =>
      (expectSign rfl).bind fun _ => Clean.lastSpan.bind fun _ => .pure fun _ hs => hs.1

theorem concurrentAssign (label : Option String) (start : Span) :
    Smooth tokens heads m (Parse.concurrentAssign label start) :=
  target.bind fun t => (expectSign rfl).bind fun _ => (assignAfter t start).bind fun _ =>
    Clean.lastSpan.bind fun _ => .pure fun _ hs => hs.1

end Smooth

/-- If there is a label, its colon was passed last. -/
def Labelled (label : Option String) (tokens : List Token) (heads : List Token → Prop) (m : Nat)
    (s : ParseState) : Prop :=
  Calm tokens heads m s ∧ (label.isSome → Past (.symbol .colon) tokens heads m s)

theorem Clean.label? : Clean (Calm tokens heads m) Parse.label? fun l => Labelled l tokens heads m := by
  refine atLabel.bind fun b => .ite (fun hb => ?_) fun _ => .pure fun _ hs => ⟨hs.1, nofun⟩
  have hname : Clean (fun s => Calm tokens heads m s ∧
      b = (s.kind == .identifier && s.kindAt 1 == .symbol .colon)) Parse.name fun _ s =>
        Calm tokens heads m s ∧ .symbol .colon = s.kind := by
    refine (Clean.ident (J := fun s => Calm tokens heads m s ∧ .symbol .colon = s.kind) ?_).bind fun _ =>
      .pure fun _ => id
    rintro s ⟨hs, rfl⟩ hkind
    rw [Bool.and_eq_true, beq_iff_eq, beq_iff_eq] at hb
    exact hs.name_then hkind hb.2
  refine hname.bind fun _ => (Clean.advance (J := Past (.symbol .colon) tokens heads m) ?_).bind fun _ =>
    .pure fun s hs => ⟨hs.calm nofun, fun _ => hs⟩
  rintro s ⟨hs, hkind⟩
  exact (hs.mono (Nat.le_succ m)).past_of_isPlain hkind.symm rfl

theorem Clean.requireLabel (label : Option String) (start : Span) :
    Clean (Labelled label tokens heads m) (Parse.requireLabel label start) fun _ =>
      Past (.symbol .colon) tokens heads m := by
  cases label with
  | none => exact .fail _ _
  | some l => exact .pure fun _ hs => hs.2 rfl

theorem Clean.entityInstance (label : Option String) (start : Span) :
    Clean (Labelled label tokens heads m) (Parse.entityInstance label start) fun _ =>
      Calm tokens heads m := by
  have hword : Clean (Past (.symbol .colon) tokens heads m) (Parse.expectWord .kwEntity) fun _ =>
      Calm tokens heads m :=
    expect fun s hs hkind => hs.calm_advance (hkind ▸ nofun) (hkind ▸ nofun) (hkind ▸ rfl)
  refine (requireLabel label start).bind fun l => hword.bind fun _ => Smooth.name.bind fun _ =>
    (Smooth.eatSign rfl).bind fun _ => .ite (fun _ => Smooth.name.bind fun entity => ?_) fun _ => ?_
  all_goals
    refine (Smooth.eatSign rfl).bind fun _ => .ite (fun _ => ?_) fun _ => Smooth.instanceAfter _ _ _ _
    exact Smooth.name.bind fun _ => (Smooth.expectSign rfl).bind fun _ => Smooth.instanceAfter _ _ _ _

theorem Clean.componentInstance (label : Option String) (start : Span) :
    Clean (Labelled label tokens heads m) (Parse.componentInstance label start) fun _ =>
      Calm tokens heads m := by
  have hword : Clean (Past (.symbol .colon) tokens heads m) (Parse.eatWord .kwComponent) fun _ =>
      Calm tokens heads m := eat_inert nofun rfl
  exact (requireLabel label start).bind fun l => hword.bind fun _ => Smooth.name.bind fun entity =>
    Smooth.instanceAfter l entity none start

section
variable {body : Parse (List Concurrent)} (hbody : Smooth tokens heads m body)
include hbody

theorem Clean.generate (label : Option String) (start : Span) :
    Clean (Labelled label tokens heads m) (Parse.generate body label start) fun _ =>
      Calm tokens heads m := by
  have hword : Clean (Calm tokens heads m) (Parse.expectWord .kwGenerate) fun _ => Fresh tokens heads m :=
    ((expect_past rfl).post fun _ _ hs => hs.fresh rfl).pre fun _ hs => hs.mono (Nat.le_succ m)
  have hlabel : Clean (Labelled label tokens heads m) (Parse.requireLabel label start) fun _ =>
      Calm tokens heads m := (requireLabel label start).post fun _ _ hs => hs.calm nofun
  refine hlabel.bind fun l => (Smooth.expectWord rfl).bind fun _ => Smooth.name.bind fun var =>
    (Smooth.expectWord rfl).bind fun _ => Smooth.range.bind fun r => hword.bind fun _ =>
      kind.bind fun k => ?_
  have hrest : ∀ ds : List Decl, Smooth tokens heads m (do
      let stmts ← body
      let _ ← Parse.expectWord .kwEnd
      let _ ← Parse.expectWord .kwGenerate
      Parse.eatName
      let _ ← Parse.expectSign .semicolon
      return Concurrent.generate ⟨l, var, r, ds, stmts, start.cover (← Parse.lastSpan)⟩) :=
    fun _ => hbody.bind fun _ => (Smooth.expectWord rfl).bind fun _ => (Smooth.expectWord rfl).bind fun _ =>
      Smooth.eatName.bind fun _ => (Smooth.expectSign rfl).bind fun _ => lastSpan.bind fun _ =>
        .pure fun _ hs => hs.1
  split
  case h_5 =>
    exact ((Smooth.eatWord rfl).pre fun _ hs => hs.1.calm).bind fun _ => hrest []
  all_goals
    refine (decls.pre fun _ hs => hs.1).bind fun ds => ?_
    exact ((Smooth.expectWord rfl).pre fun _ hs => hs.calm).bind fun _ => hrest ds

theorem Smooth.concurrentOf : Smooth tokens heads m (Parse.concurrentOf body) := by
  refine Clean.span.bind fun start => Clean.label?.bind fun label => .get fun s => ?_
  have hcalm : ∀ s', s' = s ∧ Labelled label tokens heads m s → Calm tokens heads m s' :=
    fun _ hs => hs.1 ▸ hs.2.1
  have hlabelled : ∀ s', s' = s ∧ Labelled label tokens heads m s → Labelled label tokens heads m s' :=
    fun _ hs => hs.1 ▸ hs.2
  split
  · exact ((process label start).pre hcalm).bind fun _ => .pure fun _ => id
  · exact (Clean.entityInstance label start).pre hlabelled
  · exact (Clean.componentInstance label start).pre hlabelled
  · exact (Clean.generate hbody label start).pre hlabelled
  · exact .unsupported _
  · exact ((selectedAssign label start).pre hcalm).bind fun _ => .pure fun _ => id
  · refine .ite (fun _ => (Clean.componentInstance label start).pre hlabelled) fun _ => ?_
    exact ((concurrentAssign label start).pre hcalm).bind fun _ => .pure fun _ => id
  · exact .expected _

end

theorem Clean.headKind : Smooth tokens heads m Parse.headKind := by
  refine atLabel.bind fun _ => .ite (fun _ => ?_) fun _ => kind.post fun _ _ hs => hs.1.1
  exact (Clean.peek fun _ => rfl).post fun _ _ hs => hs.1.1

theorem Smooth.concurrentsAt {stmt : Parse Concurrent} (hstmt : Smooth tokens heads m stmt) (n : Nat) :
    Smooth tokens heads m (Parse.concurrentsAt stmt n) := by
  induction n with
  | zero => exact .pure fun _ => id
  | succ n ih =>
    refine .get fun s => .ite (fun _ => .pure fun _ hs => hs.1 ▸ hs.2) fun _ => ?_
    refine (Clean.headKind.pre fun _ hs => hs.1 ▸ hs.2).bind fun head => hstmt.attempt.bind fun o => ?_
    split
    · exact (Clean.of_some (J := fun _ => Calm tokens heads m) ih).bind fun _ => .pure fun _ => id
    · exact .of_none (reads_faulty.skipConcurrent head) fun _ => ih

theorem Smooth.concurrents : Smooth tokens heads m Parse.concurrents := by
  refine .fueled fun n => ?_
  induction n with
  | zero => exact .pure fun _ => id
  | succ n ih => exact .fueled (concurrentsAt (concurrentOf ih))

end

end HdlLint.Syntax.Parse
