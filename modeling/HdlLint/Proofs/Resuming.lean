import Mathlib.Order.Bounds.Defs
import HdlLint.Proofs.Clauses
import HdlLint.Proofs.Lists

/-!
# Where reading goes on behind a faulty unit

A unit whose rule fails is skipped: the token at hand is passed, whatever it is, and then all tokens up
to the next place where a unit can start (`skipToUnit_isLeast`). Places are counted from the start of
the text, and whether a unit can start at one is told by the tokens alone (`CanResume`). There the next
round begins, and the unit that it reads is one of the library (`Reached.keepsUnit`). So the one place
that is lost is that of the token at which the rule failed (`units_resume`).
-/

namespace HdlLint.Syntax

/-! ### Places -/

/-- The kind of the token at a place; `eof` past the end. -/
def kindAt (tokens : List Token) (i : Nat) : TokenKind := (tokens[i]?).elim .eof Token.kind

/-- The words with which a unit, or a clause between units, starts. -/
def unitWords : List Keyword := [.kwEntity, .kwArchitecture, .kwPackage, .kwLibrary, .kwUse]

/-- Such a word stands at the place, and no `end` in front of it. -/
def IsUnitStart (tokens : List Token) (i : Nat) : Prop :=
  (∃ w ∈ unitWords, kindAt tokens i = .keyword w) ∧ (i = 0 ∨ kindAt tokens (i - 1) ≠ .keyword .kwEnd)

instance (tokens : List Token) (i : Nat) : Decidable (IsUnitStart tokens i) :=
  inferInstanceAs (Decidable (_ ∧ _))

/-- A unit can start at the place, or the text ends there. -/
def CanResume (tokens : List Token) (i : Nat) : Prop :=
  kindAt tokens i = .eof ∨ IsUnitStart tokens i

namespace ParseState
variable {tokens : List Token} {s : ParseState}

/-- The place of the token at hand. -/
def position (s : ParseState) : Nat := s.passed.length

/-- The text `tokens` is being read. -/
def Splits (tokens : List Token) (s : ParseState) : Prop := s.passed.reverse ++ s.rest = tokens

theorem position_advance (h : s.kind ≠ .eof) : s.advance.position = s.position + 1 := by
  obtain ⟨t, -, -, hpassed⟩ := exists_passed_advance h
  rw [position, hpassed]
  rfl

theorem Splits.advance (h : s.Splits tokens) : s.advance.Splits tokens :=
  append_advance.trans h

theorem Splits.kindAt_position (h : s.Splits tokens) : Syntax.kindAt tokens s.position = s.kind := by
  have hat : tokens[s.passed.length]? = s.rest[0]? := by
    rw [← h, List.getElem?_append_right (by simp)]
    simp
  rw [Syntax.kindAt, position, hat]
  rfl

/-- In front of the token at hand stands the one passed last. -/
theorem Splits.kindAt_last {t : Token} {ts : List Token} (h : s.Splits tokens)
    (hpassed : s.passed = t :: ts) : Syntax.kindAt tokens (s.position - 1) = t.kind := by
  have hat : tokens[ts.length]? = some t := by
    rw [← h, hpassed, List.reverse_cons, List.append_assoc, List.getElem?_append_right (by simp)]
    simp
  rw [position, hpassed, List.length_cons, Nat.add_sub_cancel, Syntax.kindAt, hat]
  rfl

theorem Splits.startsUnit_iff (h : s.Splits tokens) :
    Parse.startsUnit s ↔ IsUnitStart tokens s.position := by
  have hword : (∃ w ∈ unitWords, s.kind = .keyword w) ↔ (s.kind == .keyword .kwEntity ||
      s.kind == .keyword .kwArchitecture || s.kind == .keyword .kwPackage ||
      s.kind == .keyword .kwLibrary || s.kind == .keyword .kwUse) := by
    simp [unitWords, or_assoc]
  rw [Parse.startsUnit, Bool.and_eq_true, IsUnitStart, h.kindAt_position, hword, and_comm]
  refine and_congr_right fun _ => ?_
  cases hpassed : s.passed with
  | nil => simp [position, hpassed]
  | cons t ts =>
    rw [h.kindAt_last hpassed]
    simp [position, hpassed]

end ParseState

open ParseState

theorem IsUnitStart.ne_eof {tokens : List Token} {i : Nat} (h : IsUnitStart tokens i) :
    kindAt tokens i ≠ .eof := by
  obtain ⟨⟨w, -, hw⟩, -⟩ := h
  rw [hw]
  nofun

namespace Parse
variable {tokens : List Token} {s f r : ParseState}

/-! ### Skipping -/

theorem skipUntilAt_isLeast {n : Nat} (h : s.Splits tokens) (hn : s.rest.length < n) :
    ∃ r, skipUntilAt startsUnit n s = (some (), r) ∧ r.Splits tokens ∧
      IsLeast {i | s.position ≤ i ∧ CanResume tokens i} r.position := by
  induction n generalizing s with
  | zero => omega
  | succ n ih =>
    have hrun : skipUntilAt startsUnit (n + 1) s =
        (if s.kind == .eof || startsUnit s then pure () else do
          Parse.advance
          skipUntilAt startsUnit n : Parse Unit) s := rfl
    have hresume : (s.kind == .eof || startsUnit s) = true ↔ CanResume tokens s.position := by
      rw [CanResume, h.kindAt_position, ← h.startsUnit_iff, Bool.or_eq_true, beq_iff_eq]
    by_cases hstop : CanResume tokens s.position
    · rw [hrun, if_pos (hresume.2 hstop)]
      exact ⟨s, rfl, h, ⟨Nat.le_refl _, hstop⟩, fun _ hi => hi.1⟩
    · have hne : s.kind ≠ .eof := fun heof => hstop (.inl (h.kindAt_position.trans heof))
      obtain ⟨r, hr, hsplits, hleast⟩ := ih h.advance
        (Nat.lt_of_lt_of_le (length_advance_lt hne) (Nat.lt_succ_iff.1 hn))
      rw [position_advance hne] at hleast
      refine ⟨r, ?_, hsplits, ⟨Nat.le_of_succ_le hleast.1.1, hleast.1.2⟩, fun i hi => ?_⟩
      · rw [hrun, if_neg fun hs => hstop (hresume.1 hs)]
        exact hr
      · -- the place at hand is none at which to resume
        have hi' : s.position ≠ i := fun heq => hstop (heq ▸ hi.2)
        exact hleast.2 ⟨Nat.lt_of_le_of_ne hi.1 hi', hi.2⟩

/-- Skipping passes the token at hand and comes to the next place where a unit can start. -/
theorem skipToUnit_isLeast (h : s.Splits tokens) :
    ∃ r, skipToUnit s = (some (), r) ∧ r.Splits tokens ∧
      IsLeast {i | s.advance.position ≤ i ∧ CanResume tokens i} r.position :=
  skipUntilAt_isLeast h.advance (Nat.lt_succ_self _)

theorem isLeast_resume_iff (h : s.Splits tokens)
    (hleast : IsLeast {i | s.advance.position ≤ i ∧ CanResume tokens i} r.position) :
    IsLeast {i | s.position ≤ i ∧ CanResume tokens i} r.position ↔ ¬IsUnitStart tokens s.position := by
  by_cases heof : s.kind = .eof
  · have hnot : ¬IsUnitStart tokens s.position := fun hstart =>
      hstart.ne_eof (h.kindAt_position.trans heof)
    rw [advance_of_eof heof] at hleast
    exact iff_of_true hleast hnot
  · rw [position_advance heof] at hleast
    constructor
    · -- the place itself would be the first, but it was passed
      intro hfirst hstart
      exact Nat.lt_irrefl _ (Nat.lt_of_le_of_lt (hfirst.2 ⟨Nat.le_refl _, .inr hstart⟩) hleast.1.1)
    · intro hnot
      have hresume : ¬CanResume tokens s.position := by
        rintro (hkind | hstart)
        · exact heof (h.kindAt_position.symm.trans hkind)
        · exact hnot hstart
      refine ⟨⟨Nat.le_of_succ_le hleast.1.1, hleast.1.2⟩, fun i hi => hleast.2 ⟨?_, hi.2⟩⟩
      exact Nat.lt_of_le_of_ne hi.1 fun heq => hresume (heq ▸ hi.2)

/-! ### Rounds -/

/-- A round of reading units begins in the state `s`. -/
inductive Reached (tokens : List Token) : ParseState → Prop where
  | init : Reached tokens (.init tokens)
  | round {s s' : ParseState} {l : Library} : Reached tokens s → s.kind ≠ .eof →
      unit s = (some l, s') → Reached tokens s'

theorem reads_splits (tokens : List Token) : Reads (Splits tokens) fun _ => True where
  pass _ h := h.advance
  report _ _ _ h _ := h
  here _ _ := trivial
  last _ _ := trivial
  cover _ _ _ _ := trivial

theorem Reached.splits (h : Reached tokens s) : s.Splits tokens := by
  induction h with
  | init => exact List.nil_append tokens
  | @round s s' l _ _ hrun ih =>
    have hunit := ((reads_splits tokens).unit s ih).1
    rwa [hrun] at hunit

/-- What a round gives is put in front of what the rounds behind it give. -/
theorem units_of_unit {s' z : ParseState} {l more : Library} (hne : s.kind ≠ .eof)
    (hunit : unit s = (some l, s')) (hunits : units s' = (some more, z)) :
    units s = (some (l.append more), z) := by
  have hrun : units s = (if s.kind == .eof then pure {} else do
      let l ← unit
      let more ← units
      return l.append more : Parse Library) s := congrFun units_loop.eq s
  rw [hrun, if_neg (by simp [hne]), run_bind_some hunit, run_bind_some hunits]
  rfl

/-- What is read from the state on is in the library behind what was read before. -/
theorem Reached.units_init {z : ParseState} {l : Library} (h : Reached tokens s)
    (hunits : units s = (some l, z)) :
    ∃ front, units (.init tokens) = (some (Library.append front l), z) := by
  induction h generalizing l with
  | init => exact ⟨{}, hunits⟩
  | @round s s' first _ hne hunit ih =>
    obtain ⟨front, hfront⟩ := ih (units_of_unit hne hunit hunits)
    refine ⟨front.append first, ?_⟩
    rw [hfront]
    simp [Library.append]

/-- The unit that is read in the round from `s` on is one of the library. -/
structure KeepsUnit (tokens : List Token) (s : ParseState) : Prop where
  entity : ∀ e s', s.kind = .keyword .kwEntity → Parse.entity s = (some e, s') →
    e ∈ (parseTokens tokens).1.entities
  architecture : ∀ a s', s.kind = .keyword .kwArchitecture → Parse.architecture s = (some a, s') →
    a ∈ (parseTokens tokens).1.architectures

theorem Reached.exists_append {s' : ParseState} {l : Library} (h : Reached tokens s)
    (hne : s.kind ≠ .eof) (hunit : unit s = (some l, s')) :
    ∃ front more : Library, (parseTokens tokens).1 = front.append (l.append more) := by
  obtain ⟨more, z, hmore, -⟩ := units_loop.total unit_total s'
  obtain ⟨front, hfront⟩ := h.units_init (units_of_unit hne hunit hmore)
  refine ⟨front, more, ?_⟩
  rw [parseTokens, hfront]
  rfl

theorem kind_run {k : TokenKind} (h : s.kind = k) : kind s = (some k, s) := h ▸ rfl

theorem Reached.keepsUnit (h : Reached tokens s) : KeepsUnit tokens s := by
  constructor
  · intro e s' hkind hrun
    have hunit : unit s = (some { entities := [e] }, s') :=
      (run_bind_some (kind_run hkind)).trans (run_bind_some (attempt_run hrun))
    obtain ⟨front, more, heq⟩ := h.exists_append (hkind ▸ nofun) hunit
    simp [heq, Library.append]
  · intro a s' hkind hrun
    have hunit : unit s = (some { architectures := [a] }, s') :=
      (run_bind_some (kind_run hkind)).trans (run_bind_some (attempt_run hrun))
    obtain ⟨front, more, heq⟩ := h.exists_append (hkind ▸ nofun) hunit
    simp [heq, Library.append]

/-! ### Faulty units -/

/-- An entity or an architecture should start in the state `s`, and its rule fails in the state `f`. -/
def FailsAt (s f : ParseState) : Prop :=
  (s.kind = .keyword .kwEntity ∧ entity s = (none, f)) ∨
    (s.kind = .keyword .kwArchitecture ∧ architecture s = (none, f))

theorem FailsAt.ne_eof (h : FailsAt s f) : s.kind ≠ .eof := by
  rcases h with ⟨hkind, -⟩ | ⟨hkind, -⟩
  · exact hkind ▸ nofun
  · exact hkind ▸ nofun

theorem FailsAt.unit_eq (h : FailsAt s f) :
    unit s = (do skipToUnit; return {} : Parse Library) f := by
  rcases h with ⟨hkind, hrun⟩ | ⟨hkind, hrun⟩
  · exact (run_bind_some (kind_run hkind)).trans (run_bind_some (attempt_run hrun))
  · exact (run_bind_some (kind_run hkind)).trans (run_bind_some (attempt_run hrun))

theorem FailsAt.splits (h : FailsAt s f) (hs : s.Splits tokens) : f.Splits tokens := by
  rcases h with ⟨-, hrun⟩ | ⟨-, hrun⟩
  · have hentity := ((reads_splits tokens).entity s hs).1
    rwa [hrun] at hentity
  · have harchitecture := ((reads_splits tokens).architecture s hs).1
    rwa [hrun] at harchitecture

/-- A rule that fails leaves nothing, and what cannot start a unit is passed over. -/
theorem FailsAt.skips (hs : Reached tokens s) (hfails : FailsAt s f) :
    ∃ r, unit s = (some {}, r) ∧
      IsLeast {i | f.advance.position ≤ i ∧ CanResume tokens i} r.position := by
  obtain ⟨r, hskip, -, hleast⟩ := skipToUnit_isLeast (hfails.splits hs.splits)
  refine ⟨r, ?_, hleast⟩
  rw [hfails.unit_eq, run_bind_some hskip]
  rfl

/-- Behind a unit that fails at `f` reading goes on at the first place behind that token where a unit
can start, or the text ends, and the unit there is read. This place is also the first one at or behind
the token unless a unit can start with the token itself. -/
theorem units_resume (hs : Reached tokens s) (hfails : FailsAt s f) :
    ∃ r, unit s = (some {}, r) ∧ Reached tokens r ∧ KeepsUnit tokens r ∧
      IsLeast {i | f.advance.position ≤ i ∧ CanResume tokens i} r.position ∧
      (IsLeast {i | f.position ≤ i ∧ CanResume tokens i} r.position ↔
        ¬IsUnitStart tokens f.position) := by
  obtain ⟨r, hunit, hleast⟩ := hfails.skips hs
  have hr : Reached tokens r := hs.round hfails.ne_eof hunit
  exact ⟨r, hunit, hr, hr.keepsUnit, hleast,
    isLeast_resume_iff (hfails.splits hs.splits) hleast⟩

/-- The type of a port is missing in the first of two entities. -/
def untypedPort : List Token := (Lexer.lex 0 "entity a is port (p : in ); end; entity b is end;").1

theorem units_resume_untypedPort :
    FailsAt (.init untypedPort) (entity (.init untypedPort)).2 ∧
    ∃ r, unit (.init untypedPort) = (some {}, r) ∧ KeepsUnit untypedPort r ∧
      IsLeast {i | (entity (.init untypedPort)).2.position ≤ i ∧ CanResume untypedPort i} r.position := by
  have hfails : FailsAt (.init untypedPort) (entity (.init untypedPort)).2 :=
    .inl ⟨by decide +kernel, Prod.ext (Option.isNone_iff_eq_none.1 (by decide +kernel)) rfl⟩
  obtain ⟨r, hunit, -, hkeeps, -, hiff⟩ := units_resume .init hfails
  exact ⟨hfails, r, hunit, hkeeps, hiff.2 (by decide +kernel)⟩

/-- The first of two entities breaks off in front of the second. -/
def brokenOff : List Token := (Lexer.lex 0 "entity a entity b is end;").1

/-- The rule fails at the second entity, which could be read from there, and is skipped. -/
theorem units_resume_brokenOff : ∃ f r, FailsAt (.init brokenOff) f ∧
    unit (.init brokenOff) = (some {}, r) ∧ (entity f).1.isSome ∧
    ¬IsLeast {i | f.position ≤ i ∧ CanResume brokenOff i} r.position ∧
    (parseTokens brokenOff).1.entities.length = 0 := by
  have hlost : ¬(unit (.init brokenOff)).2.position ≤ (entity (.init brokenOff)).2.position := by
    decide +kernel
  have hstart : IsUnitStart brokenOff (entity (.init brokenOff)).2.position := by decide +kernel
  have hfails : FailsAt (.init brokenOff) (entity (.init brokenOff)).2 :=
    .inl ⟨by decide +kernel, Prod.ext (Option.isNone_iff_eq_none.1 (by decide +kernel)) rfl⟩
  obtain ⟨r, hunit, -⟩ := hfails.skips .init
  rw [hunit] at hlost
  exact ⟨_, r, hfails, hunit, by decide +kernel,
    fun hfirst => hlost (hfirst.2 ⟨Nat.le_refl _, .inr hstart⟩), by decide +kernel⟩

end Parse

end HdlLint.Syntax
