import HdlLint.Proofs.CleanReading

/-!
# The tokens that a rule passes

`Clean` says in which states a rule can end. Here the rule is followed token by token: behind the tokens
`before` it passes some tokens `ts`, of which together with what it gives `Q` holds, unless a fault has
been reported (`Spells`). In a sequence of rules the tokens that each of them passes stand one behind
the other (`Spells.bind`). What is known of those that were passed goes along as `H`.

The tokens of an expression are not told apart here by its tree. It is enough that none of them is a word
of a statement, apart from the names of attributes, and that it ends with an operand (`ExprText`).
-/

namespace HdlLint

/-! ### Texts of expressions -/

/-- The kinds of the tokens of an expression, apart from ticks and what stands behind them. Choices, which
are divided by bars, count as one expression. -/
def TokenKind.inExpr : TokenKind → Bool
  | .identifier | .intLiteral | .charLiteral | .stringLiteral | .bitStringLiteral => true
  | .symbol .leftParen | .symbol .rightParen | .symbol .comma | .symbol .arrow | .symbol .bar => true
  | .keyword .kwOthers | .keyword .kwTo | .keyword .kwDownto => true
  | k => (Syntax.UnaryOp.ofToken? k).isSome || (Syntax.BinaryOp.ofToken? k).isSome

/-- The kinds of the tokens with which an operand ends. -/
def TokenKind.endsOperand : TokenKind → Bool
  | .identifier | .intLiteral | .charLiteral | .stringLiteral | .bitStringLiteral => true
  | .symbol .rightParen => true
  | _ => false

theorem TokenKind.inExpr_of_endsOperand {k : TokenKind} (h : k.endsOperand) : k.inExpr := by
  unfold endsOperand at h
  split at h
  iterate 6 rfl
  cases h

namespace Syntax

theorem UnaryOp.inExpr_of_ofToken? {k : TokenKind} {op : UnaryOp} (h : ofToken? k = some op) : k.inExpr := by
  unfold TokenKind.inExpr
  split <;> simp_all

theorem BinaryOp.inExpr_of_ofToken? {k : TokenKind} {op : BinaryOp} (h : ofToken? k = some op) :
    k.inExpr := by
  unfold TokenKind.inExpr
  split <;> simp_all

/-- Tokens of expressions. The name of an attribute may be any word. -/
inductive Phrase : List Token → Prop where
  | nil : Phrase []
  | cons {t : Token} {ts : List Token} : t.kind.inExpr → Phrase ts → Phrase (t :: ts)
  | attribute {n k w : Token} {ts : List Token} : n.kind = .identifier → k.kind = .symbol .tick →
      w.kind.isWord → Phrase ts → Phrase (n :: k :: w :: ts)

/-- The tokens with which an expression ends. -/
inductive OperandEnd : List Token → Prop where
  | token {t : Token} : t.kind.endsOperand → OperandEnd [t]
  | attribute {n k w : Token} : n.kind = .identifier → k.kind = .symbol .tick → w.kind.isWord →
      OperandEnd [n, k, w]

/-- The tokens of an expression. -/
def ExprText (ts : List Token) : Prop := ∃ front last, Phrase front ∧ OperandEnd last ∧ ts = front ++ last

theorem Phrase.append {ts us : List Token} (ht : Phrase ts) (hu : Phrase us) : Phrase (ts ++ us) := by
  induction ht with
  | nil => exact hu
  | cons h _ ih => exact .cons h ih
  | «attribute» hn hk hw _ ih => exact .attribute hn hk hw ih

theorem OperandEnd.phrase {ts : List Token} (h : OperandEnd ts) : Phrase ts := by
  cases h with
  | token h => exact .cons (TokenKind.inExpr_of_endsOperand h) .nil
  | «attribute» hn hk hw => exact .attribute hn hk hw .nil

namespace ExprText
variable {ts us : List Token} {t : Token}

theorem phrase (h : ExprText ts) : Phrase ts := by
  obtain ⟨front, last, hfront, hlast, rfl⟩ := h
  exact hfront.append hlast.phrase

theorem ofEnd (h : OperandEnd ts) : ExprText ts := ⟨[], ts, .nil, h, rfl⟩

theorem after (hu : ExprText us) (ht : Phrase ts) : ExprText (ts ++ us) := by
  obtain ⟨front, last, hfront, hlast, rfl⟩ := hu
  exact ⟨ts ++ front, last, ht.append hfront, hlast, by simp⟩

theorem cons (h : ExprText ts) (ht : t.kind.inExpr) : ExprText (t :: ts) := h.after (.cons ht .nil)

theorem append (ht : ExprText ts) (hu : ExprText us) : ExprText (ts ++ us) := hu.after ht.phrase

/-- More of an expression may follow. -/
theorem append_opt (ht : ExprText ts) (hu : us = [] ∨ ExprText us) : ExprText (ts ++ us) := by
  rcases hu with rfl | hu
  · rwa [List.append_nil]
  · exact ht.append hu

theorem ne_nil (h : ExprText ts) : ts ≠ [] := by
  obtain ⟨front, last, -, hlast | hlast, rfl⟩ := h
  · simp
  · simp

end ExprText

namespace Parse
variable {α β : Type} {tokens before : List Token} {H : Prop}

/-! ### Rules and tokens -/

/-- Of the text `tokens` those of `before` were passed, the last one first. Its end is never passed. -/
structure Behind (tokens before : List Token) (s : ParseState) : Prop where
  passed_eq : s.passed = before
  tokens_eq : before.reverse ++ s.rest = tokens
  ne_eof : ∀ t ∈ before, t.kind ≠ .eof

namespace Behind
variable {s s' : ParseState}

theorem length_eq (h : Behind tokens before s) : tokens.length = before.length + s.rest.length := by
  rw [← h.tokens_eq, List.length_append, List.length_reverse]

theorem rest_eq (h : Behind tokens before s) (h' : Behind tokens before s') : s.rest = s'.rest :=
  List.append_cancel_left (h.tokens_eq.trans h'.tokens_eq.symm)

theorem kind_eq (h : Behind tokens before s) (h' : Behind tokens before s') : s.kind = s'.kind := by
  rw [ParseState.kind, ParseState.kindAt, h.rest_eq h']
  rfl

/-- Passing the token at hand. -/
theorem advance (h : Behind tokens before s) (hne : s.kind ≠ .eof) :
    ∃ t, t.kind = s.kind ∧ t.span = s.span ∧ Behind tokens (t :: before) s.advance := by
  obtain ⟨t, ht, hrest, hpassed⟩ := ParseState.exists_passed_advance hne
  refine ⟨t, ht, ?_, hpassed.trans (congrArg _ h.passed_eq), ?_, ?_⟩
  · rw [ParseState.span, ParseState.token?, hrest]
    rfl
  · rw [List.reverse_cons, List.append_assoc, List.singleton_append, ← hrest]
    exact h.tokens_eq
  · exact List.forall_mem_cons.2 ⟨ht ▸ hne, h.ne_eof⟩

/-- The tokens that were passed from there on stood there. -/
theorem rest_of_passed {ts : List Token} (h : Behind tokens before s)
    (h' : Behind tokens (ts.reverse ++ before) s') : s.rest = ts ++ s'.rest := by
  refine List.append_cancel_left (h.tokens_eq.trans (h'.tokens_eq.symm.trans ?_))
  rw [List.reverse_append, List.reverse_reverse, List.append_assoc]

theorem span_of_passed {t : Token} {ts : List Token} (h : Behind tokens before s)
    (h' : Behind tokens ((t :: ts).reverse ++ before) s') : s.span = t.span := by
  rw [ParseState.span, ParseState.token?, h.rest_of_passed h']
  rfl

theorem kind_of_passed {t : Token} {ts : List Token} (h : Behind tokens before s)
    (h' : Behind tokens ((t :: ts).reverse ++ before) s') : s.kind = t.kind := by
  rw [ParseState.kind, ParseState.kindAt, h.rest_of_passed h']
  rfl

end Behind

/-- The token at hand behind `before` is of the kind `k`. -/
def Next (tokens before : List Token) (k : TokenKind) : Prop := ∀ s, Behind tokens before s → s.kind = k

theorem Behind.next {s : ParseState} (h : Behind tokens before s) : Next tokens before s.kind :=
  fun _ h' => h'.kind_eq h

theorem Behind.next_second {s : ParseState} (h : Behind tokens before s) (t : Token) :
    Next tokens (t :: before) (s.kindAt 1) := by
  intro s' h'
  have hrest : s.rest = t :: s'.rest := by
    refine List.append_cancel_left (h.tokens_eq.trans (h'.tokens_eq.symm.trans ?_))
    rw [List.reverse_cons, List.append_assoc, List.singleton_append]
  rw [ParseState.kindAt, hrest]
  rfl

/-- Less than `n` tokens are left behind `before`. -/
def Left (tokens before : List Token) (n : Nat) : Prop := tokens.length < n + before.length

namespace Left
variable {n : Nat}

theorem cons (h : Left tokens before n) (t : Token) : Left tokens (t :: before) n := by
  rw [Left, List.length_cons]
  exact Nat.lt_succ_of_lt h

theorem append (h : Left tokens before n) (ts : List Token) : Left tokens (ts.reverse ++ before) n := by
  rw [Left, List.length_append]
  exact Nat.lt_of_lt_of_le h (by omega)

theorem all (tokens before : List Token) : Left tokens before (tokens.length + 1) := by
  rw [Left]
  omega

/-- A token that was passed is one less that is left. -/
theorem pass (h : Left tokens before (n + 1)) (t : Token) : Left tokens (t :: before) n := by
  rw [Left, List.length_cons]
  rw [Left] at h
  omega

end Left

/-- A fault stays whatever the rule does. Behind the tokens `before`, and if `H` holds, the rule gives
something and passes tokens, both with `Q`, unless a fault has been reported. -/
structure Spells (tokens before : List Token) (H : Prop) (p : Parse α) (Q : α → List Token → Prop) :
    Prop where
  stays : Keeps Faulty p
  gives : H → ∀ s, Behind tokens before s → Faulty (p s).2 ∨
    ∃ a ts, (p s).1 = some a ∧ Q a ts ∧ Behind tokens (ts.reverse ++ before) (p s).2

namespace Spells
variable {p : Parse α} {f : α → Parse β} {Q Q' : α → List Token → Prop} {R : β → List Token → Prop}

theorem pure {a : α} (h : H → Q a []) : Spells tokens before H (Pure.pure a : Parse α) Q :=
  ⟨Keeps.pure, fun hH _ hs => .inr ⟨a, [], rfl, h hH, hs⟩⟩

theorem bind (hp : Spells tokens before H p Q) (hf : ∀ a ts,
    Spells tokens (ts.reverse ++ before) (H ∧ Q a ts) (f a) fun b us => R b (ts ++ us)) :
    Spells tokens before H (p >>= f) R := by
  refine ⟨hp.stays.bind fun a => (hf a []).stays, fun hH s hs => ?_⟩
  have hps := hp.gives hH s hs
  rcases hrun : p s with ⟨_ | a, s'⟩
  · rw [hrun] at hps
    rw [run_bind_none hrun]
    rcases hps with hfault | ⟨a, -, ha, -⟩
    · exact .inl hfault
    · cases ha
  · rw [hrun] at hps
    rw [run_bind_some hrun]
    rcases hps with hfault | ⟨_, ts, ha, hQ, hat⟩
    · exact .inl ((hf a []).stays s' hfault).1
    · obtain rfl := Option.some.inj ha
      refine ((hf _ ts).gives ⟨hH, hQ⟩ s' hat).imp_right ?_
      rintro ⟨b, us, hb, hR, hat'⟩
      refine ⟨b, ts ++ us, hb, hR, ?_⟩
      rwa [List.reverse_append, List.append_assoc]

theorem post (h : Spells tokens before H p Q) (hQ : ∀ a ts, H → Q a ts → Q' a ts) :
    Spells tokens before H p Q' :=
  ⟨h.stays, fun hH s hs => (h.gives hH s hs).imp_right fun ⟨a, ts, ha, hts, hat⟩ =>
    ⟨a, ts, ha, hQ a ts hH hts, hat⟩⟩

theorem pre {H' : Prop} (h : Spells tokens before H p Q) (hH : H' → H) : Spells tokens before H' p Q :=
  ⟨h.stays, fun h' => h.gives (hH h')⟩

theorem map {g : α → β} (h : Spells tokens before H p Q) (hR : ∀ a ts, H → Q a ts → R (g a) ts) :
    Spells tokens before H (p >>= fun a => Pure.pure (g a)) R := by
  refine h.bind fun a ts => pure fun hts => ?_
  rw [List.append_nil]
  exact hR a ts hts.1 hts.2

/-- A rule that cannot be reached without a fault. -/
theorem of_not (hp : Keeps Faulty p) (hH : ¬H) : Spells tokens before H p Q :=
  ⟨hp, fun h => absurd h hH⟩

theorem ite {c : Prop} [Decidable c] {q : Parse α} (hp : c → Spells tokens before H p Q)
    (hq : ¬c → Spells tokens before H q Q) : Spells tokens before H (if c then p else q) Q := by
  by_cases hc : c
  · rw [if_pos hc]
    exact hp hc
  · rw [if_neg hc]
    exact hq hc

theorem fail (e : SyntaxError) (span : Span) : Spells tokens before H (Parse.fail e span) Q :=
  ⟨reads_faulty.fail e trivial, fun _ _ _ => .inl (List.cons_ne_nil _ _)⟩

theorem expected (what : String) : Spells tokens before H (Parse.expected what) Q :=
  ⟨reads_faulty.expected what, fun _ _ _ => .inl (List.cons_ne_nil _ _)⟩

theorem unsupported (what : String) : Spells tokens before H (Parse.unsupported what) Q :=
  ⟨reads_faulty.unsupported what, fun _ _ _ => .inl (List.cons_ne_nil _ _)⟩

/-- A rule that looks at the state first, and is then run in this state. -/
theorem get {f : ParseState → Parse α}
    (h : ∀ s, Spells tokens before (H ∧ Behind tokens before s) (f s) Q) :
    Spells tokens before H (MonadState.get >>= f) Q :=
  ⟨Keeps.get.bind fun s => (h s).stays, fun hH s hs => (h s).gives ⟨hH, hs⟩ s hs⟩

theorem kind {f : TokenKind → Parse α}
    (h : ∀ k, Spells tokens before (H ∧ Next tokens before k) (f k) Q) :
    Spells tokens before H (Parse.kind >>= f) Q :=
  get fun s => (h s.kind).pre fun hs => ⟨hs.1, hs.2.next⟩

theorem atKind {k : TokenKind} {f : Bool → Parse α} (h : ∀ b, Spells tokens before H (f b) Q) :
    Spells tokens before H (Parse.atKind k >>= f) Q :=
  get fun s => (h (s.kind == k)).pre And.left

theorem atDirection {f : Bool → Parse α} (h : ∀ b, Spells tokens before H (f b) Q) :
    Spells tokens before H (Parse.atDirection >>= f) Q :=
  get fun _ => (h _).pre And.left

/-- The span of the token at hand is that of the first token that is passed. -/
theorem span {f : Span → Parse α}
    (h : ∀ x, Spells tokens before H (f x) fun a ts => (∀ t us, ts = t :: us → x = t.span) → Q a ts) :
    Spells tokens before H (Parse.span >>= f) Q := by
  refine ⟨Keeps.get.bind fun s => (h s.span).stays, fun hH s hs => ?_⟩
  refine ((h s.span).gives hH s hs).imp_right ?_
  rintro ⟨a, ts, ha, hQ, hat⟩
  refine ⟨a, ts, ha, hQ ?_, hat⟩
  rintro t us rfl
  exact hs.span_of_passed hat

/-- The kind of the token at hand is that of the first token that is passed. -/
theorem first (h : Spells tokens before H p fun a ts =>
    (∀ t us, ts = t :: us → Next tokens before t.kind) → Q a ts) : Spells tokens before H p Q := by
  refine ⟨h.stays, fun hH s hs => (h.gives hH s hs).imp_right ?_⟩
  rintro ⟨a, ts, ha, hQ, hat⟩
  refine ⟨a, ts, ha, hQ ?_, hat⟩
  rintro t us rfl
  exact hs.kind_of_passed hat ▸ hs.next

theorem span_any {f : Span → Parse α} (h : ∀ x, Spells tokens before H (f x) Q) :
    Spells tokens before H (Parse.span >>= f) Q :=
  span fun x => (h x).post fun _ _ _ hQ _ => hQ

theorem lastSpan {f : Span → Parse α}
    (h : ∀ x, Spells tokens before (H ∧ ∀ t, before.head? = some t → x = t.span) (f x) Q) :
    Spells tokens before H (Parse.lastSpan >>= f) Q := by
  refine get fun s => (h s.lastSpan).pre fun hs => ⟨hs.1, fun t ht => ?_⟩
  rw [ParseState.lastSpan, hs.2.passed_eq, ht]
  rfl

theorem of_clean (hstays : Keeps Faulty p) (h : H → Clean (Behind tokens before) p fun a s =>
    ∃ ts, Q a ts ∧ Behind tokens (ts.reverse ++ before) s) : Spells tokens before H p Q := by
  refine ⟨hstays, fun hH s hs => (h hH s (.inr hs)).imp_right ?_⟩
  rintro ⟨a, ha, ts, hQ, hat⟩
  exact ⟨a, ts, ha, hQ, hat⟩

/-- A rule that passes one token, and what follows it. -/
theorem token {P : α → Token → Prop} (hp : Spells tokens before H p fun a ts => ∃ t, ts = [t] ∧ P a t)
    (h : ∀ a t, Spells tokens (t :: before) (H ∧ P a t) (f a) fun b ts => R b (t :: ts)) :
    Spells tokens before H (p >>= f) R := by
  refine hp.bind fun a ts => ⟨(h a default).stays, ?_⟩
  rintro ⟨hH, t, rfl, hP⟩
  exact (h a t).gives ⟨hH, hP⟩

theorem expect_token {k : TokenKind} (hne : k ≠ .eof) : Spells tokens before H (Parse.expect k)
    fun x ts => ∃ t, ts = [t] ∧ t.kind = k ∧ x = t.span := by
  refine of_clean (reads_faulty.expect k).keeps fun _ => .expect fun s hs hkind => ?_
  obtain ⟨t, ht, hspan, hat⟩ := hs.advance (hkind ▸ hne)
  exact ⟨[t], ⟨t, rfl, ht.trans hkind, hspan.symm⟩, hat⟩

theorem ident_token : Spells tokens before H Parse.ident
    fun _ ts => ∃ t, ts = [t] ∧ t.kind = .identifier := by
  refine of_clean reads_faulty.ident.keeps fun _ => .ident fun s hs hkind => ?_
  obtain ⟨t, ht, -, hat⟩ := hs.advance (hkind ▸ nofun)
  exact ⟨[t], ⟨t, rfl, ht.trans hkind⟩, hat⟩

theorem advance_token {k : TokenKind} (hk : H → Next tokens before k) (hne : k ≠ .eof) :
    Spells tokens before H Parse.advance fun _ ts => ∃ t, ts = [t] ∧ t.kind = k := by
  refine of_clean reads_faulty.advance fun hH => .advance fun s hs => ?_
  have hkind : s.kind = k := hk hH s hs
  obtain ⟨t, ht, -, hat⟩ := hs.advance (hkind ▸ hne)
  exact ⟨[t], ⟨t, rfl, ht.trans hkind⟩, hat⟩

theorem eat_token {k : TokenKind} (hne : k ≠ .eof) : Spells tokens before H (Parse.eat k) fun b ts =>
    (b = true ∧ ∃ t, ts = [t] ∧ t.kind = k) ∨ (b = false ∧ ts = [] ∧ ¬Next tokens before k) := by
  refine ⟨reads_faulty.eat k, fun _ s hs => .inr ?_⟩
  by_cases hkind : s.kind = k
  · obtain ⟨t, ht, -, hat⟩ := hs.advance (hkind ▸ hne)
    rw [eat_of_kind hkind]
    exact ⟨true, [t], rfl, .inl ⟨rfl, t, rfl, ht.trans hkind⟩, hat⟩
  · rw [eat_of_ne hkind]
    exact ⟨false, [], rfl, .inr ⟨rfl, rfl, fun hnext => hkind (hnext s hs)⟩, hs⟩

theorem expect {k : TokenKind} {f : Span → Parse β} (hne : k ≠ .eof)
    (h : ∀ t, Spells tokens (t :: before) (H ∧ t.kind = k) (f t.span) fun b ts => R b (t :: ts)) :
    Spells tokens before H (Parse.expect k >>= f) R := by
  refine (expect_token hne).token fun x t => ?_
  have hstays : Keeps Faulty (f x) := (h ⟨k, "", x⟩).stays
  refine ⟨hstays, ?_⟩
  rintro ⟨hH, ht, rfl⟩
  exact (h t).gives ⟨hH, ht⟩

theorem expectWord {w : Keyword} {f : Span → Parse β}
    (h : ∀ t, Spells tokens (t :: before) (H ∧ t.kind = .keyword w) (f t.span) fun b ts => R b (t :: ts)) :
    Spells tokens before H (Parse.expectWord w >>= f) R :=
  expect nofun h

theorem expectSign {x : Symbol} {f : Span → Parse β}
    (h : ∀ t, Spells tokens (t :: before) (H ∧ t.kind = .symbol x) (f t.span) fun b ts => R b (t :: ts)) :
    Spells tokens before H (Parse.expectSign x >>= f) R :=
  expect nofun h

theorem ident {f : Ident → Parse β}
    (h : ∀ i t, Spells tokens (t :: before) (H ∧ t.kind = .identifier) (f i) fun b ts => R b (t :: ts)) :
    Spells tokens before H (Parse.ident >>= f) R :=
  ident_token.token h

/-- Passing the token at hand, whose kind was looked at. -/
theorem advance {k : TokenKind} {f : Unit → Parse β} (hk : H → Next tokens before k) (hne : k ≠ .eof)
    (h : ∀ t, Spells tokens (t :: before) (H ∧ t.kind = k) (f ()) fun b ts => R b (t :: ts)) :
    Spells tokens before H (Parse.advance >>= f) R :=
  (advance_token hk hne).token fun _ => h

/-- If the token is not passed, then none of its kind stands there. -/
theorem eat_or {k : TokenKind} {q : Parse α} (hne : k ≠ .eof)
    (hyes : ∀ t, Spells tokens (t :: before) (H ∧ t.kind = k) p fun a ts => Q a (t :: ts))
    (hno : Spells tokens before (H ∧ ¬Next tokens before k) q Q) :
    Spells tokens before H (Parse.eat k >>= fun b => if b then p else q) Q := by
  refine (eat_token hne).bind fun b ts =>
    .ite (fun hb => ⟨(hyes default).stays, ?_⟩) fun hb => ⟨hno.stays, ?_⟩
  · rintro ⟨hH, ⟨-, t, rfl, ht⟩ | ⟨hfalse, -⟩⟩
    · exact (hyes t).gives ⟨hH, ht⟩
    · exact absurd hb (Bool.eq_false_iff.1 hfalse)
  · rintro ⟨hH, ⟨htrue, -⟩ | ⟨-, rfl, hnot⟩⟩
    · exact absurd htrue hb
    · exact hno.gives ⟨hH, hnot⟩

theorem eat {k : TokenKind} {q : Parse α} (hne : k ≠ .eof)
    (hyes : ∀ t, Spells tokens (t :: before) (H ∧ t.kind = k) p fun a ts => Q a (t :: ts))
    (hno : Spells tokens before H q Q) :
    Spells tokens before H (Parse.eat k >>= fun b => if b then p else q) Q :=
  eat_or hne hyes (hno.pre And.left)

theorem eatWord {w : Keyword} {q : Parse α}
    (hyes : ∀ t, Spells tokens (t :: before) (H ∧ t.kind = .keyword w) p fun a ts => Q a (t :: ts))
    (hno : Spells tokens before H q Q) :
    Spells tokens before H (Parse.eatWord w >>= fun b => if b then p else q) Q :=
  eat nofun hyes hno

theorem eatSign {x : Symbol} {q : Parse α}
    (hyes : ∀ t, Spells tokens (t :: before) (H ∧ t.kind = .symbol x) p fun a ts => Q a (t :: ts))
    (hno : Spells tokens before H q Q) :
    Spells tokens before H (Parse.eatSign x >>= fun b => if b then p else q) Q :=
  eat nofun hyes hno

/-- There is fuel for every token that is left. -/
theorem fueled {p : Nat → Parse α}
    (h : ∀ n, Spells tokens before (H ∧ Left tokens before n) (p n) Q) :
    Spells tokens before H (Parse.fueled p) Q := by
  refine get fun s => (h s.budget).pre fun hs => ⟨hs.1, ?_⟩
  rw [Left, hs.2.length_eq, ParseState.budget]
  omega

theorem attempt (h : Spells tokens before H p Q) :
    Spells tokens before H (Parse.attempt p) fun o ts => ∃ a, o = some a ∧ Q a ts := by
  refine ⟨h.stays.attempt, fun hH s hs => (h.gives hH s hs).imp_right ?_⟩
  rintro ⟨a, ts, ha, hQ, hat⟩
  exact ⟨some a, ts, congrArg some ha, ⟨a, rfl, hQ⟩, hat⟩

/-! ### Expressions -/

section
variable {n : Nat} {item : Parse α} (hitem : ∀ {before : List Token} {H : Prop},
  (H → Left tokens before n) → Spells tokens before H item fun _ ts => ExprText ts)
include hitem

theorem moreAt {sep : Symbol} (hsep : (TokenKind.symbol sep).inExpr) (hn : H → Left tokens before n)
    (k : Nat) : Spells tokens before H (Parse.moreAt sep item k) fun _ ts => ts = [] ∨ ExprText ts := by
  induction k generalizing before H with
  | zero => exact .pure fun _ => .inl rfl
  | succ k ih =>
    refine eatSign (fun t => ?_) (.pure fun _ => .inl rfl)
    refine (hitem fun h => (hn h.1).cons t).bind fun _ ts =>
      (ih fun h => ((hn h.1.1).cons t).append ts).map ?_
    rintro _ us ⟨⟨-, ht⟩, hts⟩ hus
    exact .inr ((hts.append_opt hus).cons (ht ▸ hsep))

theorem separated {sep : Symbol} (hsep : (TokenKind.symbol sep).inExpr) (hn : H → Left tokens before n) :
    Spells tokens before H (Parse.separated sep item) fun _ ts => ExprText ts := by
  refine (hitem hn).bind fun _ ts =>
    (fueled fun k => moreAt hitem hsep (fun h => (hn h.1.1).append ts) k).map ?_
  rintro _ us ⟨-, hts⟩ hus
  exact hts.append_opt hus

end

section
variable {n : Nat} {expr : Parse Expr} (hexpr : ∀ {before : List Token} {H : Prop},
  (H → Left tokens before n) → Spells tokens before H expr fun _ ts => ExprText ts)
include hexpr

theorem rangeAfter (left : Expr) (hn : H → Left tokens before n) :
    Spells tokens before H (Parse.rangeAfter expr left) fun _ ts => ExprText ts := by
  refine eatWord (fun t => ?_) (eatWord (fun t => ?_) (.expected _))
  · exact (hexpr fun h => (hn h.1).cons t).map fun _ _ h hts => hts.cons (h.2 ▸ rfl)
  · exact (hexpr fun h => (hn h.1).cons t).map fun _ _ h hts => hts.cons (h.2 ▸ rfl)

omit hexpr in
theorem attributeAfter (base : Ident) : Spells tokens before H (Parse.attributeAfter base)
    fun _ ts => ∃ w, ts = [w] ∧ w.kind.isWord := by
  refine get fun s => .ite (fun _ => .unsupported _) fun _ => .ite (fun hword => ?_) fun _ => .expected _
  have hne : s.kind ≠ .eof := by
    intro heof
    rw [heof] at hword
    cases hword
  exact advance (fun h => h.2.next) hne fun w => .pure fun h => ⟨w, rfl, h.2 ▸ hword⟩

theorem argumentsAfter (base : Ident) (hn : H → Left tokens before n) :
    Spells tokens before H (Parse.argumentsAfter expr base) fun _ ts => ExprText ts := by
  have hclose : ∀ {ts : List Token} {c : Token}, Phrase ts → c.kind = .symbol .rightParen →
      ExprText (ts ++ [c]) := fun hts hc => (ExprText.ofEnd (.token (hc ▸ rfl))).after hts
  refine (hexpr hn).bind fun first ts => atDirection fun _ => .ite (fun _ => ?_) fun _ => ?_
  · refine (rangeAfter hexpr first fun h => (hn h.1).append ts).bind fun _ us =>
      expectSign fun c => .pure ?_
    rintro ⟨⟨⟨-, hts⟩, hus⟩, hc⟩
    exact List.append_assoc ts us [c] ▸ hclose (hts.append hus).phrase hc
  · refine atKind fun _ => .ite (fun _ => .unsupported _) fun _ => ?_
    refine (fueled fun k => moreAt hexpr rfl (fun h => (hn h.1.1).append ts) k).bind fun _ us =>
      expectSign fun c => .pure ?_
    rintro ⟨⟨⟨-, hts⟩, hus⟩, hc⟩
    exact List.append_assoc ts us [c] ▸ hclose (hts.append_opt hus).phrase hc

theorem nameExpr (hn : H → Left tokens before (n + 1)) :
    Spells tokens before H (Parse.nameExpr expr) fun _ ts => ExprText ts := by
  have hname : ∀ {t : Token}, t.kind = .identifier → ExprText [t] := fun ht => .ofEnd (.token (ht ▸ rfl))
  refine ident fun i t => .ite (fun _ => .pure fun h => hname h.2) fun _ =>
    .ite (fun _ => .pure fun h => hname h.2) fun _ =>
      atKind fun _ => .ite (fun _ => .unsupported _) fun _ => ?_
  refine eatSign (fun k => ?_) (eatSign (fun o => ?_) (.pure fun h => hname h.2))
  · refine (attributeAfter i).post ?_
    rintro _ _ ⟨⟨-, ht⟩, hk⟩ ⟨w, rfl, hw⟩
    exact .ofEnd (.attribute ht hk hw)
  · refine (argumentsAfter hexpr i fun h => ((hn h.1.1).pass t).cons o).post ?_
    rintro _ ts ⟨⟨-, ht⟩, ho⟩ hts
    exact (hts.cons (ho ▸ rfl)).cons (ht ▸ rfl)

theorem element (hn : H → Left tokens before n) :
    Spells tokens before H (Parse.element expr) fun _ ts => ExprText ts := by
  refine eatWord (fun t => expectSign fun a => ?_) ((hexpr hn).bind fun _ ts => eatSign (fun a => ?_) ?_)
  · refine (hexpr fun h => ((hn h.1.1).cons t).cons a).map ?_
    rintro _ ts ⟨⟨-, ht⟩, ha⟩ hts
    exact (hts.cons (ha ▸ rfl)).cons (ht ▸ rfl)
  · refine (hexpr fun h => ((hn h.1.1).append ts).cons a).map ?_
    rintro _ us ⟨⟨-, hts⟩, ha⟩ hus
    exact hts.append (hus.cons (ha ▸ rfl))
  · refine atKind fun _ => .ite (fun _ => span_any fun _ => .fail _ _) fun _ => .pure fun h => ?_
    rw [List.append_nil]
    exact h.2

theorem parenExpr (hn : H → Left tokens before (n + 1)) :
    Spells tokens before H (Parse.parenExpr expr) fun _ ts => ExprText ts := by
  refine expectSign fun o => ?_
  refine (separated (element hexpr) rfl fun h => (hn h.1).pass o).bind fun elements ts =>
    expectSign fun c => ?_
  have hparen : (((H ∧ o.kind = .symbol .leftParen) ∧ ExprText ts) ∧ c.kind = .symbol .rightParen) →
      ExprText (o :: (ts ++ [c])) := by
    rintro ⟨⟨⟨-, ho⟩, hts⟩, hc⟩
    exact ((ExprText.ofEnd (.token (hc ▸ rfl))).after hts.phrase).cons (ho ▸ rfl)
  split
  · exact .pure hparen
  · exact .pure hparen

omit hexpr in
theorem intExpr (hk : H → Next tokens before .intLiteral) :
    Spells tokens before H Parse.intExpr fun _ ts => ExprText ts := by
  refine get fun s => ?_
  split
  · exact advance (fun h => hk h.1) nofun fun t => .pure fun h => .ofEnd (.token (h.2 ▸ rfl))
  · exact .fail _ _

theorem primary (hn : H → Left tokens before (n + 1)) :
    Spells tokens before H (Parse.primary expr) fun _ ts => ExprText ts := by
  refine get fun s => ?_
  have hleaf : ∀ {k : TokenKind} {e : Expr}, s.kind = k → k.endsOperand →
      Spells tokens before (H ∧ Behind tokens before s) (do Parse.advance; return e) fun _ ts =>
        ExprText ts := by
    intro k e hkind hk
    have hne : k ≠ .eof := by
      rintro rfl
      cases hk
    exact advance (fun h => hkind ▸ h.2.next) hne fun t => .pure fun h => .ofEnd (.token (h.2 ▸ hk))
  split
  · rename_i hkind
    exact intExpr fun h => hkind ▸ h.2.next
  · exact .unsupported _
  · rename_i hkind
    exact hleaf hkind rfl
  · rename_i hkind
    exact hleaf hkind rfl
  · rename_i hkind
    exact hleaf hkind rfl
  · exact nameExpr hexpr fun h => hn h.1
  · exact parenExpr hexpr fun h => hn h.1
  · exact .expected _

end

section
variable {n : Nat} {expr : Nat → Parse Expr} (hexpr : ∀ (least : Nat) {before : List Token} {H : Prop},
  (H → Left tokens before n) → Spells tokens before H (expr least) fun _ ts => ExprText ts)
include hexpr

theorem operand (hn : H → Left tokens before (n + 1)) :
    Spells tokens before H (Parse.operand expr) fun _ ts => ExprText ts := by
  refine get fun s => ?_
  split
  · rename_i op hop
    have hne : s.kind ≠ .eof := by
      intro heof
      rw [heof] at hop
      cases hop
    refine advance (fun h => h.2.next) hne fun t => ?_
    refine (hexpr _ fun h => (hn h.1.1).pass t).map ?_
    rintro _ ts ⟨-, ht⟩ hts
    exact hts.cons (ht ▸ UnaryOp.inExpr_of_ofToken? hop)
  · exact primary (hexpr _) fun h => hn h.1

theorem climb (least k : Nat) (lhs : Expr) (hn : H → Left tokens before n) :
    Spells tokens before H (Parse.climb expr least k lhs) fun _ ts => ts = [] ∨ ExprText ts := by
  induction k generalizing before H lhs with
  | zero => exact .pure fun _ => .inl rfl
  | succ k ih =>
    refine kind fun x => ?_
    split
    · exact .pure fun _ => .inl rfl
    · rename_i op hop
      refine .ite (fun _ => .pure fun _ => .inl rfl) fun _ => ?_
      have hne : x ≠ .eof := by
        rintro rfl
        cases hop
      refine advance And.right hne fun t => (hexpr _ fun h => (hn h.1.1).cons t).bind fun _ ts => ?_
      refine (ih _ fun h => ((hn h.1.1.1).cons t).append ts).post ?_
      rintro _ us ⟨⟨-, ht⟩, hts⟩ hus
      exact .inr ((hts.append_opt hus).cons (ht ▸ BinaryOp.inExpr_of_ofToken? hop))

end

/-- Without fuel a rule is not reached, since it has some for every token. -/
theorem of_left_zero {p : Parse α} {Q : α → List Token → Prop} (hp : Keeps Faulty p)
    (hn : H → Left tokens before 0) : Spells tokens before H p Q := by
  refine ⟨hp, fun hH s hs => absurd (hn hH) ?_⟩
  rw [Left, hs.length_eq]
  omega

theorem exprAt (n least : Nat) (hn : H → Left tokens before n) :
    Spells tokens before H (Parse.exprAt n least) fun _ ts => ExprText ts := by
  induction n generalizing before H least with
  | zero => exact of_left_zero .failure hn
  | succ n ih =>
    refine (operand (fun k => ih k) hn).bind fun lhs ts => ?_
    -- behind an operand there is a token less
    have hpass : H ∧ ExprText ts → Left tokens (ts.reverse ++ before) n := by
      rintro ⟨hH, hts⟩
      have hlen := List.length_pos_iff.2 hts.ne_nil
      have hleft := hn hH
      rw [Left, List.length_append, List.length_reverse]
      rw [Left] at hleft
      omega
    exact (climb (fun k => ih k) least n lhs hpass).post fun _ us h hus => h.2.append_opt hus

theorem expr : Spells tokens before H Parse.expr fun _ ts => ExprText ts :=
  fueled fun n => exprAt n _ And.right

end Spells

end Parse

end Syntax

end HdlLint
