import HdlLint.Proofs.Agreement
import HdlLint.Proofs.Reading

/-!
# Clauses that are passed over

Context clauses, component declarations and delays are not read: from the word that opens them tokens
are passed until one that closes them, whatever stands in between. Which clause is open behind some
tokens is told here by the tokens alone (`openClause`), and so is which tokens outside of clauses start
a unit (`unitHeads`). In both, tokens are given the last one first.

A state of the reader is looked at for the same two things: which heads it has passed (`Course`), and
whether a clause is open. Between rules none is (`Calm`); where a unit or a declaration may start, the
token passed last is none behind which `entity` or `component` mean something else (`Fresh`).
-/

namespace HdlLint

/-- The kinds that open no clause, start no unit and are no tick. -/
def TokenKind.isPlain : TokenKind → Bool
  | .keyword .kwLibrary | .keyword .kwUse | .keyword .kwAfter | .keyword .kwComponent
  | .keyword .kwEntity | .keyword .kwArchitecture | .symbol .tick | .eof => false
  | _ => true

theorem TokenKind.ne_of_isPlain {k l : TokenKind} (hk : k.isPlain) (hl : l.isPlain = false) : k ≠ l := by
  rintro rfl
  rw [hl] at hk
  cases hk

namespace Syntax

/-! ### Clauses -/

/-- What is passed over. A component declaration is closed by `end component` and a semicolon. -/
inductive Clause where
  | context
  | component
  | closing
  | delay
  deriving DecidableEq, Repr

def lastKind (before : List Token) : Option TokenKind := before.head?.map Token.kind

namespace Clause

/-- The clause that a token opens. Behind a tick every word is the name of an attribute. -/
def opened (last : Option TokenKind) : TokenKind → Option Clause
  | .keyword .kwLibrary | .keyword .kwUse => if last = some (.symbol .tick) then none else some .context
  | .keyword .kwAfter => if last = some (.symbol .tick) then none else some .delay
  | .keyword .kwComponent =>
    if last = some (.symbol .tick) ∨ last = some (.symbol .colon) then none else some .component
  | _ => none

def endsDelay : TokenKind → Bool
  | .symbol .semicolon | .symbol .comma | .keyword .kwWhen | .keyword .kwElse => true
  | _ => false

theorem endsDelay_eq (k : TokenKind) : (k == .symbol .semicolon || k == .keyword .kwWhen ||
    k == .keyword .kwElse || k == .symbol .comma) = endsDelay k := by
  unfold endsDelay
  split <;> simp_all

/-- The clause that is open behind a token of kind `k`, where `last` stands in front of it. -/
def next (last : Option TokenKind) (open? : Option Clause) (k : TokenKind) : Option Clause :=
  match open? with
  | none => opened last k
  | some .context => if k = .symbol .semicolon then none else some .context
  | some .component =>
    if last = some (.keyword .kwEnd) ∧ k = .keyword .kwComponent then some .closing else some .component
  | some .closing => if k = .symbol .semicolon then none else some .closing
  | some .delay => if endsDelay k then none else some .delay

end Clause

/-- The clause that is open behind the tokens. -/
def openClause : List Token → Option Clause
  | [] => none
  | t :: before => Clause.next (lastKind before) (openClause before) t.kind

/-- The word `entity` that neither ends an entity nor names one. -/
def isEntityHead (last : Option TokenKind) (k : TokenKind) : Bool :=
  k == .keyword .kwEntity &&
    last ∉ [some (.keyword .kwEnd), some (.symbol .colon), some (.symbol .tick)]

/-- The word `architecture` that does not end one. -/
def isArchitectureHead (last : Option TokenKind) (k : TokenKind) : Bool :=
  k == .keyword .kwArchitecture && last ∉ [some (.keyword .kwEnd), some (.symbol .tick)]

def isUnitHead (last : Option TokenKind) (k : TokenKind) : Bool :=
  isEntityHead last k || isArchitectureHead last k

/-- The tokens outside of clauses with which units start. -/
def unitHeads : List Token → List Token
  | [] => []
  | t :: before =>
    if isUnitHead (lastKind before) t.kind && openClause before = none then t :: unitHeads before
    else unitHeads before

/-- Neither a clause nor a unit starts with `k` behind `last`. -/
def isInert (last : Option TokenKind) (k : TokenKind) : Bool :=
  Clause.opened last k = none && !isUnitHead last k

theorem isInert_of_isPlain {k : TokenKind} (hk : k.isPlain) (last : Option TokenKind) :
    isInert last k := by
  have hopened : Clause.opened last k = none := by
    unfold Clause.opened
    split
    all_goals first | rfl | cases hk
  have hentity : k ≠ .keyword .kwEntity := TokenKind.ne_of_isPlain hk rfl
  have harchitecture : k ≠ .keyword .kwArchitecture := TokenKind.ne_of_isPlain hk rfl
  simp [isInert, hopened, isUnitHead, isEntityHead, isArchitectureHead, hentity, harchitecture]

/-- Behind a tick every word is the name of an attribute. -/
theorem isInert_of_tick (k : TokenKind) : isInert (some (.symbol .tick)) k := by
  have hopened : Clause.opened (some (.symbol .tick)) k = none := by
    unfold Clause.opened
    split <;> simp
  simp [isInert, hopened, isUnitHead, isEntityHead, isArchitectureHead]

/-! ### States -/

namespace ParseState
variable {s : ParseState}

/-- Passing a token puts it in front of those passed before. -/
theorem exists_passed_advance (h : s.kind ≠ .eof) :
    ∃ t, t.kind = s.kind ∧ s.rest = t :: s.advance.rest ∧ s.advance.passed = t :: s.passed := by
  obtain ⟨t, ts, hrest, ht⟩ := exists_rest_of_kind h
  have hne : t.kind ≠ .eof := ht ▸ h
  refine ⟨t, ht, ?_, ?_⟩
  · simp [advance, hrest, hne]
  · simp [advance, hrest, hne]

/-- Passing a token leaves the text as it is. -/
theorem append_advance : s.advance.passed.reverse ++ s.advance.rest = s.passed.reverse ++ s.rest := by
  unfold advance
  split
  · rfl
  · split
    · rfl
    · simp [*]

theorem advance_of_eof (h : s.kind = .eof) : s.advance = s := by
  rw [kind, kindAt] at h
  rcases hrest : s.rest with _ | ⟨t, ts⟩
  · simp [advance, hrest]
  · have ht : t.kind = .eof := by rwa [hrest] at h
    simp [advance, hrest, ht]

theorem kind_advance (h : s.kind ≠ .eof) : s.advance.kind = s.kindAt 1 := by
  obtain ⟨t, -, hrest, -⟩ := exists_passed_advance h
  rw [kind, kindAt, kindAt, hrest]
  rfl

end ParseState

/-- Of the text `tokens` less than `m` tokens are left, and `heads` holds of the tokens with which the
units start that were passed outside of clauses. -/
structure Course (tokens : List Token) (heads : List Token → Prop) (m : Nat) (s : ParseState) :
    Prop where
  tokens_eq : s.passed.reverse ++ s.rest = tokens
  heads_passed : heads (unitHeads s.passed)
  length_lt : s.rest.length < m

/-- No clause is open, or it ends with the token at hand. -/
structure Calm (tokens : List Token) (heads : List Token → Prop) (m : Nat) (s : ParseState) :
    Prop extends Course tokens heads m s where
  ready : s.kind = .eof ∨ (openClause s.passed = none ∧ lastKind s.passed ≠ some (.symbol .tick)) ∨
    (openClause s.passed = some .delay ∧ Clause.endsDelay s.kind)

/-- A token of kind `k` was passed outside of clauses. -/
structure Past (k : TokenKind) (tokens : List Token) (heads : List Token → Prop) (m : Nat)
    (s : ParseState) : Prop extends Course tokens heads m s where
  none_open : openClause s.passed = none
  last_eq : lastKind s.passed = some k

/-- The kinds behind which a word can start a unit or a component declaration. -/
def isFresh (last : Option TokenKind) : Bool :=
  last ∉ [some (.keyword .kwEnd), some (.symbol .colon), some (.symbol .tick)]

theorem ne_of_isFresh {last : Option TokenKind} {k : TokenKind} (h : isFresh last)
    (hk : isFresh (some k) = false) : last ≠ some k := by
  rintro rfl
  rw [hk] at h
  cases h

/-- A unit or a declaration may start here, or the text ends. -/
structure Fresh (tokens : List Token) (heads : List Token → Prop) (m : Nat) (s : ParseState) :
    Prop extends Course tokens heads m s where
  ready : s.kind = .eof ∨ (openClause s.passed = none ∧ isFresh (lastKind s.passed))

section
variable {tokens : List Token} {heads : List Token → Prop} {m : Nat} {s : ParseState} {k : TokenKind}

theorem Course.mono {m' : Nat} (h : Course tokens heads m s) (hm : m ≤ m') : Course tokens heads m' s :=
  ⟨h.tokens_eq, h.heads_passed, Nat.lt_of_lt_of_le h.length_lt hm⟩

theorem Calm.mono {m' : Nat} (h : Calm tokens heads m s) (hm : m ≤ m') : Calm tokens heads m' s :=
  ⟨h.toCourse.mono hm, h.ready⟩

theorem Past.calm (h : Past k tokens heads m s) (hk : k ≠ .symbol .tick) : Calm tokens heads m s := by
  refine ⟨h.toCourse, .inr (.inl ⟨h.none_open, fun htick => ?_⟩)⟩
  rw [h.last_eq] at htick
  exact hk (Option.some.inj htick)

theorem Course.fresh (h : Course tokens heads m s) (hnone : openClause s.passed = none)
    (hlast : lastKind s.passed = some k) (hk : isFresh (some k)) : Fresh tokens heads m s :=
  ⟨h, .inr ⟨hnone, hlast ▸ hk⟩⟩

theorem Past.fresh (h : Past k tokens heads m s) (hk : isFresh (some k)) : Fresh tokens heads m s :=
  h.toCourse.fresh h.none_open h.last_eq hk

theorem Fresh.calm (h : Fresh tokens heads m s) : Calm tokens heads m s := by
  exact ⟨h.toCourse, h.ready.imp_right fun hready => .inl ⟨hready.1, ne_of_isFresh hready.2 rfl⟩⟩

/-- Passing a token that starts no unit, or does so in a clause. -/
theorem Course.step (h : Course tokens heads (m + 1) s) (hk : s.kind ≠ .eof)
    (hstarts : isUnitHead (lastKind s.passed) s.kind = false ∨ openClause s.passed ≠ none) :
    Course tokens heads m s.advance ∧ lastKind s.advance.passed = some s.kind ∧
      openClause s.advance.passed = Clause.next (lastKind s.passed) (openClause s.passed) s.kind := by
  obtain ⟨t, ht, -, hpassed⟩ := ParseState.exists_passed_advance hk
  have hlen := ParseState.length_advance_lt hk
  have hlt := h.length_lt
  have hheads : unitHeads (t :: s.passed) = unitHeads s.passed := by
    rw [unitHeads, if_neg]
    rcases hstarts with hstarts | hopen
    · simp [ht, hstarts]
    · simp [hopen]
  refine ⟨⟨?_, ?_, by omega⟩, ?_, ?_⟩
  · rw [ParseState.append_advance, h.tokens_eq]
  · rw [hpassed, hheads]
    exact h.heads_passed
  · rw [hpassed, lastKind, List.head?_cons, Option.map_some, ht]
  · rw [hpassed, openClause, ht]

theorem Course.advance (h : Course tokens heads m s) (hk : s.kind ≠ .eof)
    (hstarts : isUnitHead (lastKind s.passed) s.kind = false ∨ openClause s.passed ≠ none) :
    Course tokens heads m s.advance ∧ lastKind s.advance.passed = some s.kind ∧
      openClause s.advance.passed = Clause.next (lastKind s.passed) (openClause s.passed) s.kind :=
  (h.mono (Nat.le_succ m)).step hk hstarts

theorem Course.past (h : Course tokens heads (m + 1) s) (hk : s.kind ≠ .eof)
    (hnext : Clause.next (lastKind s.passed) (openClause s.passed) s.kind = none)
    (hinert : isInert (lastKind s.passed) s.kind) : Past s.kind tokens heads m s.advance := by
  rw [isInert, Bool.and_eq_true, Bool.not_eq_true'] at hinert
  obtain ⟨hcourse, hlast, hopen⟩ := h.step hk (.inl hinert.2)
  exact ⟨hcourse, hopen.trans hnext, hlast⟩

theorem Past.past {last : TokenKind} (h : Past last tokens heads (m + 1) s) (hk : s.kind ≠ .eof)
    (hinert : isInert (some last) s.kind) : Past s.kind tokens heads m s.advance := by
  rw [← h.last_eq] at hinert
  refine h.toCourse.past hk ?_ hinert
  rw [h.none_open]
  rw [isInert, Bool.and_eq_true, decide_eq_true_eq] at hinert
  exact hinert.1

/-- Where the kind of the last token is known, more words are inert than the plain ones. -/
theorem Past.calm_advance {last : TokenKind} (h : Past last tokens heads m s) (hk : s.kind ≠ .eof)
    (htick : s.kind ≠ .symbol .tick) (hinert : isInert (some last) s.kind) :
    Calm tokens heads m s.advance := by
  have h' : Past last tokens heads (m + 1) s := ⟨h.toCourse.mono (Nat.le_succ m), h.none_open, h.last_eq⟩
  exact (h'.past hk hinert).calm htick

theorem Calm.past (h : Calm tokens heads (m + 1) s) (hk : s.kind ≠ .eof)
    (hinert : ∀ last, isInert last s.kind) : Past s.kind tokens heads m s.advance := by
  refine h.toCourse.past hk ?_ (hinert _)
  rcases h.ready with heof | ⟨hnone, -⟩ | ⟨hdelay, hends⟩
  · exact absurd heof hk
  · have hopened := hinert (lastKind s.passed)
    rw [isInert, Bool.and_eq_true, decide_eq_true_eq] at hopened
    rw [hnone]
    exact hopened.1
  · rw [hdelay]
    exact if_pos hends

theorem Calm.past_of_isPlain (h : Calm tokens heads (m + 1) s)
    (hkind : s.kind = k) (hk : k.isPlain) : Past k tokens heads m s.advance := by
  subst hkind
  exact h.past (TokenKind.ne_of_isPlain hk rfl) (isInert_of_isPlain hk)

theorem Calm.advance (h : Calm tokens heads m s) (hk : s.kind.isPlain) : Calm tokens heads m s.advance :=
  ((h.mono (Nat.le_succ m)).past_of_isPlain rfl hk).calm (TokenKind.ne_of_isPlain hk rfl)

/-- Passing a name in front of a token of kind `k`. -/
theorem Calm.name_then (h : Calm tokens heads m s) (hname : s.kind = .identifier) (hk : s.kindAt 1 = k) :
    Calm tokens heads m s.advance ∧ k = s.advance.kind := by
  refine ⟨h.advance (hname ▸ rfl), ?_⟩
  rw [ParseState.kind_advance (hname ▸ nofun), hk]

end

end Syntax

end HdlLint
