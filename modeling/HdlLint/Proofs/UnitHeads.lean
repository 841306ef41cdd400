import HdlLint.Proofs.CaseBlind
import HdlLint.Proofs.CleanReading
import HdlLint.Proofs.Cutting
import HdlLint.Proofs.Rendering

/-!
# The units of a text without a fault

Where nothing is reported, the units that are read start exactly at the words `entity` and `architecture`
that start a unit outside of clauses, in the order of the text (`Headed`, `parse_headed`). A unit is lost
without a word just where such a word stands in a clause, since clauses are passed over unread
(`parse_keepsUnits_iff`).
-/

namespace HdlLint

/-! ### Words of a text -/

namespace Lexer

/-- A token that starts with a letter is a word, unless it is a bit string. -/
theorem cut_word {prev : Option TokenKind} {pos skip : Nat} {cs : List Char} :
    ∀ p ∈ cut prev pos skip cs, ∀ k, p.kind = some k → p.text.head?.any Ascii.isWordStart →
      k = .bitStringLiteral ∨ k = .invalid ∨ k = wordKind p.text := by
  refine cut_forall (P := fun k w => w.head?.any Ascii.isWordStart →
    k = .bitStringLiteral ∨ k = .invalid ∨ k = wordKind w) fun prev c cs k hk hstart => ?_
  rw [shape_of_isWordStart hstart] at hk ⊢
  exact wordShape_kind hk

theorem lex_plain {file : Nat} {text : String} {t : Token} (ht : t ∈ (lex file text).1)
    (htext : Ascii.lower t.text ∈ Syntax.Parse.genericTypes) : t.kind.isPlain := by
  have hstart : ∀ w ∈ Syntax.Parse.genericTypes, w.toList.head?.any Char.isAlpha ∧
      wordKind w.toList = .identifier := by decide
  obtain ⟨halpha, hword⟩ := hstart _ htext
  rw [Ascii.toList_lower, List.head?_map, Option.any_map] at halpha
  rw [wordKind_lower] at hword
  rcases mem_lex.1 ht with ⟨p, hp, k, hk, rfl⟩ | rfl
  · rw [String.toList_ofList] at halpha hword
    simp only [Ascii.isAlpha_toLower] at halpha
    rcases cut_word p hp k hk halpha with rfl | rfl | rfl
    · rfl
    · rfl
    · exact congrArg TokenKind.isPlain hword
  · cases halpha

end Lexer

namespace Syntax

/-! ### Heads -/

section
variable {t : Token} {ts : List Token}

theorem unitHeads_sublist (ts : List Token) : (unitHeads ts).Sublist ts := by
  induction ts with
  | nil => exact .refl _
  | cons u us ih =>
    rw [unitHeads]
    split
    · exact ih.cons_cons u
    · exact ih.cons u

/-- The heads are the tokens outside of clauses that start a unit by what stands in front of them. -/
theorem mem_unitHeads : t ∈ unitHeads ts ↔ ∃ before, t :: before <:+ ts ∧
    isUnitHead (lastKind before) t.kind ∧ openClause before = none := by
  induction ts with
  | nil => simp [unitHeads]
  | cons u us ih =>
    have hsplit : (∃ before, t :: before <:+ u :: us ∧ isUnitHead (lastKind before) t.kind ∧
        openClause before = none) ↔ (t = u ∧ isUnitHead (lastKind us) u.kind ∧ openClause us = none) ∨
          t ∈ unitHeads us := by
      rw [ih]
      constructor
      · rintro ⟨before, hsuffix, hhead, hnone⟩
        rcases List.suffix_cons_iff.1 hsuffix with heq | hsuffix
        · obtain ⟨rfl, rfl⟩ := List.cons.inj heq
          exact .inl ⟨rfl, hhead, hnone⟩
        · exact .inr ⟨before, hsuffix, hhead, hnone⟩
      · rintro (⟨rfl, hhead, hnone⟩ | ⟨before, hsuffix, hhead, hnone⟩)
        · exact ⟨us, List.suffix_refl _, hhead, hnone⟩
        · exact ⟨before, hsuffix.trans (List.suffix_cons u us), hhead, hnone⟩
    rw [hsplit, unitHeads]
    split
    · rename_i hu
      rw [Bool.and_eq_true, decide_eq_true_eq] at hu
      simp [hu]
    · rename_i hu
      rw [Bool.and_eq_true, decide_eq_true_eq] at hu
      simp [hu]

end

theorem Library.append_empty (l : Library) : l.append {} = l := by
  simp [Library.append]

theorem Library.append_assoc (l₁ l₂ l₃ : Library) :
    (l₁.append l₂).append l₃ = l₁.append (l₂.append l₃) := by
  simp [Library.append]

/-- The units of the library start where the tokens do that are given, the last one first. -/
structure Headed (l : Library) (heads : List Token) : Prop where
  entities : l.entities.map (·.span.start) =
    (heads.reverse.filter (·.kind = .keyword .kwEntity)).map (·.span.start)
  architectures : l.architectures.map (·.span.start) =
    (heads.reverse.filter (·.kind = .keyword .kwArchitecture)).map (·.span.start)

namespace Headed
variable {l : Library} {heads : List Token} {t : Token}

theorem nil : Headed {} [] := ⟨rfl, rfl⟩

theorem entity (h : Headed l heads) (ht : t.kind = .keyword .kwEntity) {e : Entity}
    (he : e.span.start = t.span.start) : Headed (l.append { entities := [e] }) (t :: heads) := by
  refine ⟨?_, ?_⟩
  · simp [Library.append, h.entities, ht, he]
  · simp [Library.append, h.architectures, ht]

theorem architecture (h : Headed l heads) (ht : t.kind = .keyword .kwArchitecture) {a : Architecture}
    (ha : a.span.start = t.span.start) : Headed (l.append { architectures := [a] }) (t :: heads) := by
  refine ⟨?_, ?_⟩
  · simp [Library.append, h.entities, ht]
  · simp [Library.append, h.architectures, ht, ha]

end Headed

section
variable {tokens : List Token} {heads : List Token → Prop} {m : Nat} {s : ParseState} {k : TokenKind}
  {span : Span}

/-- The heads passed with one more of kind `k`, which stands at the span given. -/
def HeadAt (k : TokenKind) (span : Span) (heads : List Token → Prop) (hs : List Token) : Prop :=
  ∃ t hs', hs = t :: hs' ∧ t.kind = k ∧ t.span = span ∧ heads hs'

/-- Passing a token that starts a unit. -/
theorem Fresh.head (h : Fresh tokens heads m s)
    (hk : s.kind = .keyword .kwEntity ∨ s.kind = .keyword .kwArchitecture) :
    Past s.kind tokens (HeadAt s.kind s.span heads) m s.advance := by
  have hne : s.kind ≠ .eof := by rcases hk with hk | hk <;> rw [hk] <;> nofun
  obtain ⟨hnone, hlast⟩ := h.ready.resolve_left hne
  obtain ⟨t, ht, hrest, hpassed⟩ := ParseState.exists_passed_advance hne
  have hhead : isUnitHead (lastKind s.passed) t.kind := by
    have hend := ne_of_isFresh hlast (k := .keyword .kwEnd) rfl
    have hcolon := ne_of_isFresh hlast (k := .symbol .colon) rfl
    have htick := ne_of_isFresh hlast (k := .symbol .tick) rfl
    rw [ht, isUnitHead, isEntityHead, isArchitectureHead]
    rcases hk with hk | hk <;> simp [hk, hend, hcolon, htick]
  have hspan : t.span = s.span := by
    rw [ParseState.span, ParseState.token?, hrest]
    rfl
  have hlen := ParseState.length_advance_lt hne
  have hlt := h.length_lt
  refine ⟨⟨?_, ?_, by omega⟩, ?_, ?_⟩
  · rw [ParseState.append_advance, h.tokens_eq]
  · rw [hpassed, unitHeads, if_pos (by simp [hhead, hnone])]
    exact ⟨t, _, rfl, ht, hspan, h.heads_passed⟩
  · rw [hpassed, openClause, hnone, ht]
    rcases hk with hk | hk <;> rw [hk] <;> rfl
  · rw [hpassed, lastKind, List.head?_cons, Option.map_some, ht]

/-- A unit is covered from its head on, since no token in front of the last one starts behind it. -/
theorem Course.start_cover (h : Course tokens heads m s)
    (hascending : tokens.Pairwise fun t u => t.span.start < u.span.start) {t : Token}
    (ht : t ∈ unitHeads s.passed) : (t.span.cover s.lastSpan).start = t.span.start := by
  have hpassed := (unitHeads_sublist s.passed).subset ht
  have hle : t.span.start ≤ s.lastSpan.start := by
    rcases hs : s.passed with _ | ⟨u, us⟩
    · rw [hs] at hpassed
      cases hpassed
    · have hlast : s.lastSpan = u.span := by rw [ParseState.lastSpan, hs]; rfl
      have hpair : (u :: us).Pairwise fun t u => u.span.start < t.span.start := by
        rw [← h.tokens_eq, List.pairwise_append, List.pairwise_reverse, hs] at hascending
        exact hascending.1
      rw [hs] at hpassed
      rw [hlast]
      rcases List.mem_cons.1 hpassed with rfl | hmem
      · exact Nat.le_refl _
      · exact Nat.le_of_lt (List.rel_of_pairwise_cons hpair hmem)
  unfold Span.cover
  split
  · exact Nat.min_eq_left hle
  · rfl

/-- A unit that is read to its end is one more with the head it was read from. -/
theorem Fresh.complete {heads' : List Token → Prop} (h : Fresh tokens (HeadAt k span heads) m s)
    (hascending : tokens.Pairwise fun t u => t.span.start < u.span.start)
    (hheads : ∀ t hs, t.kind = k → (span.cover s.lastSpan).start = t.span.start → heads hs →
      heads' (t :: hs)) : Fresh tokens heads' m s := by
  obtain ⟨t, hs, heq, ht, rfl, hheaded⟩ := h.heads_passed
  have hcover := h.toCourse.start_cover hascending (heq ▸ List.mem_cons_self)
  exact ⟨⟨h.tokens_eq, heq ▸ hheads t hs ht hcover hheaded, h.length_lt⟩, h.ready⟩

end

namespace Parse
variable {α : Type} {tokens : List Token} {heads : List Token → Prop} {m : Nat}

/-! ### Units -/

/-- Behind `end` the words `entity` and `architecture` start no unit. -/
theorem Clean.finishEnd {w : Keyword} (hw : isInert (some (.keyword .kwEnd)) (.keyword w)) :
    Clean (Past (.keyword .kwEnd) tokens heads m) (Parse.finishEnd w) fun _ => Fresh tokens heads m := by
  have hword : Clean (Past (.keyword .kwEnd) tokens heads m) (Parse.eatWord w) fun _ =>
      Calm tokens heads m := eat_inert nofun hw
  exact hword.bind fun _ => Smooth.eatName.bind fun _ => semicolon.bind fun _ => .pure fun _ => id

theorem Clean.unitHead {w : Keyword} (hw : w = .kwEntity ∨ w = .kwArchitecture) :
    Clean (Fresh tokens heads m) (Parse.expectWord w) fun start =>
      Calm tokens (HeadAt (.keyword w) start heads) m := by
  refine expect fun s hs hkind => ?_
  have hpast := hs.head (by rcases hw with rfl | rfl <;> simp [hkind])
  rw [hkind] at hpast
  exact hpast.calm nofun

theorem Clean.unitEnd {w : Keyword} (hw : isInert (some (.keyword .kwEnd)) (.keyword w)) {f : Span → α}
    {J : α → ParseState → Prop} (hJ : ∀ s, Fresh tokens heads m s → J (f s.lastSpan) s) :
    Clean (Calm tokens heads m)
      (do let _ ← Parse.expectWord .kwEnd; Parse.finishEnd w; return f (← Parse.lastSpan)) J := by
  have hend : Clean (Calm tokens heads m) (Parse.expectWord .kwEnd) fun _ =>
      Past (.keyword .kwEnd) tokens heads m :=
    (expect_past rfl).pre fun _ hs => hs.mono (Nat.le_succ m)
  refine hend.bind fun _ => (Clean.finishEnd hw).bind fun _ => lastSpan.bind fun _ => .pure ?_
  rintro s ⟨hs, rfl⟩
  exact hJ s hs

section
variable (hplain : ∀ t ∈ tokens, Ascii.lower t.text ∈ genericTypes → t.kind.isPlain)
  (hascending : tokens.Pairwise fun t u => t.span.start < u.span.start) {l : Library}
include hascending

include hplain in
theorem Clean.entity : Clean (Fresh tokens (Headed l) m) Parse.entity fun e =>
    Fresh tokens (Headed (l.append { entities := [e] })) m := by
  refine (unitHead (.inl rfl)).bind fun start => Smooth.name.bind fun n =>
    (Smooth.expectWord rfl).bind fun _ => ?_
  have hend : ∀ gs ps, Clean (Calm tokens (HeadAt (.keyword .kwEntity) start (Headed l)) m) (do
      let _ ← Parse.expectWord .kwEnd
      Parse.finishEnd .kwEntity
      return (⟨n, gs, ps, start.cover (← Parse.lastSpan)⟩ : Entity)) fun e =>
        Fresh tokens (Headed (l.append { entities := [e] })) m := by
    intro gs ps
    refine unitEnd (f := fun last => (⟨n, gs, ps, start.cover last⟩ : Entity)) rfl fun s hs => ?_
    exact hs.complete hascending fun t _ ht hstart hheaded => hheaded.entity ht hstart
  have hbody : ∀ gs ps, Clean (Calm tokens (HeadAt (.keyword .kwEntity) start (Headed l)) m) (do
      if ← Parse.atWord .kwBegin then
        Parse.unsupported "entity statement part"
      let _ ← Parse.expectWord .kwEnd
      Parse.finishEnd .kwEntity
      return (⟨n, gs, ps, start.cover (← Parse.lastSpan)⟩ : Entity)) fun e =>
        Fresh tokens (Headed (l.append { entities := [e] })) m := by
    refine fun gs ps => (atKind _).bind fun _ => .ite (fun _ => ?_) fun _ => hend gs ps
    exact (Clean.unsupported (J := fun _ => Calm tokens _ m) _).bind fun _ => hend gs ps
  have hports : ∀ gs, Clean (Calm tokens (HeadAt (.keyword .kwEntity) start (Headed l)) m) (do
      let ps ← if ← Parse.atWord .kwPort then Parse.ports else Pure.pure []
      if ← Parse.atWord .kwBegin then
        Parse.unsupported "entity statement part"
      let _ ← Parse.expectWord .kwEnd
      Parse.finishEnd .kwEntity
      return (⟨n, gs, ps, start.cover (← Parse.lastSpan)⟩ : Entity)) fun e =>
        Fresh tokens (Headed (l.append { entities := [e] })) m := by
    refine fun gs => (atKind _).bind fun _ => .ite (fun _ => ?_) fun _ => hbody gs []
    exact Smooth.ports.bind fun ps => hbody gs ps
  refine (atKind _).bind fun _ => .ite (fun _ => ?_) fun _ => hports []
  exact (Smooth.generics hplain).bind fun gs => hports gs

theorem Clean.architecture : Clean (Fresh tokens (Headed l) m) Parse.architecture fun a =>
    Fresh tokens (Headed (l.append { architectures := [a] })) m := by
  have his : ∀ heads : List Token → Prop, Clean (Calm tokens heads m) (Parse.expectWord .kwIs) fun _ =>
      Fresh tokens heads m := fun _ =>
    ((expect_past rfl).post fun _ _ hs => hs.fresh rfl).pre fun _ hs => hs.mono (Nat.le_succ m)
  refine (unitHead (.inr rfl)).bind fun start => Smooth.name.bind fun n =>
    (Smooth.expectWord rfl).bind fun _ => Smooth.name.bind fun e => (his _).bind fun _ =>
      decls.bind fun ds => ((Smooth.expectWord rfl).pre fun _ hs => hs.calm).bind fun _ =>
        Smooth.concurrents.bind fun body => ?_
  refine unitEnd (f := fun last => (⟨n, e, ds, body, start.cover last⟩ : Architecture)) rfl
    fun s hs => ?_
  exact hs.complete hascending fun t _ ht hstart hheaded => hheaded.architecture ht hstart

include hplain in
theorem Clean.unit : Clean (Fresh tokens (Headed l) m) Parse.unit fun l' =>
    Fresh tokens (Headed (l.append l')) m := by
  have hclause : ∀ k, k = .keyword .kwLibrary ∨ k = .keyword .kwUse →
      Clean (fun s => Fresh tokens (Headed l) m s ∧ k = s.kind)
        (do Parse.skipSentence; return {}) fun l' => Fresh tokens (Headed (l.append l')) m := by
    intro k hk
    have hskip : Clean (fun s => Fresh tokens (Headed l) m s ∧ k = s.kind) Parse.skipSentence fun _ =>
        Fresh tokens (Headed l) m := contextClause.pre fun s hs => ⟨hs.1, hs.2 ▸ hk⟩
    refine hskip.bind fun _ => .pure fun s hs => ?_
    rwa [Library.append_empty]
  have hreported : ∀ (k : TokenKind) (p : Parse Unit),
      Clean (fun s => Fresh tokens (Headed l) m s ∧ k = s.kind) p (fun _ _ => False) →
      Clean (fun s => Fresh tokens (Headed l) m s ∧ k = s.kind)
        (do let _ ← Parse.attempt p; Parse.skipToUnit; return {}) fun l' =>
          Fresh tokens (Headed (l.append l')) m := by
    intro k p hp
    refine hp.attempt.bind fun o => (Clean.of_not (J := fun _ => Fresh tokens (Headed (l.append {})) m)
      reads_faulty.skipToUnit ?_).bind fun _ => .pure fun _ => id
    rintro s ⟨-, -, hfalse⟩
    exact hfalse
  refine kind.bind fun k => ?_
  split
  · exact hclause _ (.inl rfl)
  · exact hclause _ (.inr rfl)
  · refine ((Clean.entity hplain hascending).attempt.pre fun _ hs => hs.1).bind fun o => ?_
    split
    · exact .of_some (.pure fun _ => id)
    · exact .of_none reads_faulty.skipToUnit fun _ => .pure fun _ => id
  · refine ((Clean.architecture hascending).attempt.pre fun _ hs => hs.1).bind fun o => ?_
    split
    · exact .of_some (.pure fun _ => id)
    · exact .of_none reads_faulty.skipToUnit fun _ => .pure fun _ => id
  · exact hreported _ _ (.unsupported _)
  · exact hreported _ _ (.expected _)

include hplain in
theorem Clean.unitsAt (n : Nat) : Clean (Fresh tokens (Headed l) m) (Parse.unitsAt n) fun l' =>
    Fresh tokens (Headed (l.append l')) m := by
  -- the units read so far go through the induction together with the heads passed
  induction n generalizing l with
  | zero =>
    refine .pure fun s hs => ?_
    rwa [Library.append_empty]
  | succ n ih =>
    refine kind.bind fun k => .ite (fun _ => .pure fun s hs => ?_) fun _ => ?_
    · rw [Library.append_empty]
      exact hs.1
    · refine ((Clean.unit hplain hascending).pre fun _ hs => hs.1).bind fun l₁ => ih.bind fun l₂ =>
        .pure fun s hs => ?_
      rwa [← Library.append_assoc]

end

end Parse

/-! ### Texts -/

theorem fresh_init (tokens : List Token) :
    Fresh tokens (Headed {}) (tokens.length + 1) (.init tokens) :=
  ⟨⟨rfl, .nil, Nat.lt_succ_self _⟩, .inr ⟨rfl, rfl⟩⟩

theorem lex_starts (file : Nat) (text : String) :
    (Lexer.lex file text).1.Pairwise fun t u => t.span.start < u.span.start := by
  obtain ⟨inner, htokens, hinner⟩ := Lexer.lex_closed file text
  have hascending := Lexer.lex_ascending file text
  rw [htokens, List.pairwise_append] at hascending ⊢
  obtain ⟨hfirst, -, hlast⟩ := hascending
  refine ⟨hfirst.imp_of_mem fun ht _ h => ?_, List.pairwise_singleton _ _, fun t ht u hu => ?_⟩
  · exact Nat.lt_of_lt_of_le (hinner _ ht).2 h
  · exact Nat.lt_of_lt_of_le (hinner t ht).2 (hlast t ht u hu)

theorem parse_headed {file : Nat} {text : String} (h : (parse file text).2 = []) :
    Headed (parse file text).1 (unitHeads (Lexer.lex file text).1.reverse) := by
  obtain ⟨inner, htokens, hinner⟩ := Lexer.lex_closed file text
  have heof : (Lexer.eof file text).kind = .eof := rfl
  obtain ⟨l, s, hrun, hpassed, -⟩ := Parse.units_ends (fun t ht => (hinner t ht).1) heof
  rw [← htokens] at hrun
  rw [parse_eq, hrun] at h ⊢
  have hreported : s.reported = [] := List.reverse_eq_nil_iff.1 (List.append_eq_nil_iff.1 h).2
  have hclean := Parse.Clean.fueled (fun n => Parse.Clean.unitsAt (fun _ ht => Lexer.lex_plain ht)
    (lex_starts file text) n) (.init (Lexer.lex file text).1) (.inr (fresh_init _))
  have hunits : Parse.fueled Parse.unitsAt (.init (Lexer.lex file text).1) = (some l, s) := hrun
  rw [hunits] at hclean
  obtain ⟨l', heq, hfresh⟩ := hclean.resolve_left fun hfault => hfault hreported
  obtain rfl := Option.some.inj heq
  -- only the end of the text is left, and it is no head
  have hheads : unitHeads (Lexer.lex file text).1.reverse = unitHeads s.passed := by
    have hnot : ∀ last, isUnitHead last TokenKind.eof = false := fun _ => rfl
    rw [htokens, List.reverse_append, ← hpassed, List.reverse_reverse, List.reverse_singleton,
      List.singleton_append, unitHeads, heof, hnot]
    rfl
  have hheaded : Headed (Library.append {} l) (unitHeads s.passed) := hfresh.heads_passed
  rw [hheads]
  exact hheaded

/-- Of all tokens that are heads by what stands in front of them each starts one thing, and nothing else
starts anywhere. -/
structure StartAtHeads (tokens : List Token) (isHead : Option TokenKind → TokenKind → Bool)
    (starts : List Nat) : Prop where
  once : ∀ t before, t :: before <:+ tokens.reverse → isHead (lastKind before) t.kind →
    starts.count t.span.start = 1
  head : ∀ n ∈ starts, ∃ t before, t :: before <:+ tokens.reverse ∧ isHead (lastKind before) t.kind ∧
    t.span.start = n

/-- No unit is lost, and none is made up. -/
structure KeepsUnits (tokens : List Token) (l : Library) : Prop where
  entities : StartAtHeads tokens isEntityHead (l.entities.map (·.span.start))
  architectures : StartAtHeads tokens isArchitectureHead (l.architectures.map (·.span.start))

/-- A token is told by its start, and so is what stands in front of it. -/
theorem before_unique {ts : List Token} (hpair : ts.Pairwise fun t u => u.span.start < t.span.start)
    {t u : Token} {before before' : List Token} (ht : t :: before <:+ ts) (hu : u :: before' <:+ ts)
    (hstart : t.span.start = u.span.start) : before = before' := by
  induction ts with
  | nil => cases List.suffix_nil.1 ht
  | cons v vs ih =>
    rcases List.suffix_cons_iff.1 ht with hfirst | ht'
    · obtain ⟨rfl, rfl⟩ := List.cons.inj hfirst
      rcases List.suffix_cons_iff.1 hu with hfirst' | hu'
      · exact (List.cons.inj hfirst').2.symm
      · have hlt := List.rel_of_pairwise_cons hpair (hu'.subset List.mem_cons_self)
        omega
    · rcases List.suffix_cons_iff.1 hu with hfirst | hu'
      · obtain ⟨rfl, rfl⟩ := List.cons.inj hfirst
        have hlt := List.rel_of_pairwise_cons hpair (ht'.subset List.mem_cons_self)
        omega
      · exact ih hpair.of_cons ht' hu'

theorem startAtHeads_iff {tokens : List Token}
    (hascending : tokens.Pairwise fun t u => t.span.start < u.span.start) {w : Keyword}
    {isHead : Option TokenKind → TokenKind → Bool} {starts : List Nat}
    (hhead : ∀ last k, isHead last k ↔ k = .keyword w ∧ isUnitHead last k)
    (hstarts : starts =
      ((unitHeads tokens.reverse).reverse.filter (·.kind = .keyword w)).map (·.span.start)) :
    StartAtHeads tokens isHead starts ↔ ∀ t before, t :: before <:+ tokens.reverse →
      isHead (lastKind before) t.kind → openClause before = none := by
  have hmem : ∀ n, n ∈ starts ↔ ∃ t, t ∈ unitHeads tokens.reverse ∧ t.kind = .keyword w ∧
      t.span.start = n := by
    simp [hstarts, and_assoc]
  have hnodup : starts.Nodup := by
    have hsub := (List.filter_sublist (p := fun t : Token => t.kind = .keyword w)).trans
      (unitHeads_sublist tokens.reverse).reverse
    rw [List.reverse_reverse] at hsub
    rw [hstarts, List.Nodup, List.pairwise_map]
    exact (hascending.sublist hsub).imp Nat.ne_of_lt
  constructor
  · intro hstart t before hsuffix ht
    have hone := hstart.once t before hsuffix ht
    have hstarts : t.span.start ∈ starts := List.count_pos_iff.1 (hone ▸ Nat.one_pos)
    obtain ⟨u, hu, -, heq⟩ := (hmem _).1 hstarts
    obtain ⟨before', hsuffix', -, hnone⟩ := mem_unitHeads.1 hu
    have hbefore := before_unique (List.pairwise_reverse.2 hascending) hsuffix' hsuffix heq
    rwa [hbefore] at hnone
  · intro hnone
    refine ⟨fun t before hsuffix ht => ?_, fun n hn => ?_⟩
    · obtain ⟨hkind, hunit⟩ := (hhead _ _).1 ht
      have hheads := mem_unitHeads.2 ⟨before, hsuffix, hunit, hnone t before hsuffix ht⟩
      exact List.count_eq_one_of_mem hnodup ((hmem _).2 ⟨t, hheads, hkind, rfl⟩)
    · obtain ⟨t, ht, hkind, heq⟩ := (hmem n).1 hn
      obtain ⟨before, hsuffix, hunit, -⟩ := mem_unitHeads.1 ht
      exact ⟨t, before, hsuffix, (hhead _ _).2 ⟨hkind, hunit⟩, heq⟩

/-- No head stands in a clause. -/
def HeadsClear (ts : List Token) : Prop :=
  ∀ t before, t :: before <:+ ts → isUnitHead (lastKind before) t.kind → openClause before = none

theorem headsClear_nil : HeadsClear [] := fun _ _ h => by cases List.suffix_nil.1 h

theorem headsClear_cons {t : Token} {before : List Token} : HeadsClear (t :: before) ↔
    (isUnitHead (lastKind before) t.kind → openClause before = none) ∧ HeadsClear before := by
  constructor
  · intro h
    exact ⟨h t before (List.suffix_refl _), fun u us hsuffix =>
      h u us (hsuffix.trans (List.suffix_cons t before))⟩
  · rintro ⟨hfirst, hrest⟩ u us hsuffix
    rcases List.suffix_cons_iff.1 hsuffix with heq | hsuffix'
    · obtain ⟨rfl, rfl⟩ := List.cons.inj heq
      exact hfirst
    · exact hrest u us hsuffix'

instance HeadsClear.decidable : ∀ ts : List Token, Decidable (HeadsClear ts)
  | [] => isTrue headsClear_nil
  | _ :: before =>
    have := HeadsClear.decidable before
    decidable_of_iff _ headsClear_cons.symm

theorem isEntityHead_iff (last : Option TokenKind) (k : TokenKind) :
    isEntityHead last k ↔ k = .keyword .kwEntity ∧ isUnitHead last k := by
  constructor
  · intro h
    exact ⟨beq_iff_eq.1 (Bool.and_eq_true_iff.1 h).1, Bool.or_eq_true_iff.2 (.inl h)⟩
  · rintro ⟨rfl, h⟩
    exact (Bool.or_eq_true_iff.1 h).resolve_right nofun

theorem isArchitectureHead_iff (last : Option TokenKind) (k : TokenKind) :
    isArchitectureHead last k ↔ k = .keyword .kwArchitecture ∧ isUnitHead last k := by
  constructor
  · intro h
    exact ⟨beq_iff_eq.1 (Bool.and_eq_true_iff.1 h).1, Bool.or_eq_true_iff.2 (.inr h)⟩
  · rintro ⟨rfl, h⟩
    exact (Bool.or_eq_true_iff.1 h).resolve_left nofun

/-- Where nothing is reported, the units start at the heads outside of clauses, in the order of the text.
So no unit is lost just if no head stands in a clause. -/
theorem parse_keepsUnits_iff {file : Nat} {text : String} (h : (parse file text).2 = []) :
    Headed (parse file text).1 (unitHeads (Lexer.lex file text).1.reverse) ∧
      (KeepsUnits (Lexer.lex file text).1 (parse file text).1 ↔
        HeadsClear (Lexer.lex file text).1.reverse) := by
  have hheaded := parse_headed h
  have hentities := startAtHeads_iff (lex_starts file text) isEntityHead_iff hheaded.entities
  have harchitectures := startAtHeads_iff (lex_starts file text) isArchitectureHead_iff
    hheaded.architectures
  refine ⟨hheaded, fun hkeeps t before hsuffix hhead => ?_, fun hclear => ⟨?_, ?_⟩⟩
  · rcases Bool.or_eq_true_iff.1 hhead with hentity | harchitecture
    · exact hentities.1 hkeeps.entities t before hsuffix hentity
    · exact harchitectures.1 hkeeps.architectures t before hsuffix harchitecture
  · exact hentities.2 fun t before hsuffix hhead =>
      hclear t before hsuffix (Bool.or_eq_true_iff.2 (.inl hhead))
  · exact harchitectures.2 fun t before hsuffix hhead =>
      hclear t before hsuffix (Bool.or_eq_true_iff.2 (.inr hhead))

/-- Clauses of all kinds, and units around them. -/
def wellClosed : String :=
  "use p; entity e is end entity; architecture a of e is component c end component; " ++
  "begin s <= r after t; u : entity e; end;"

theorem parse_keepsUnits_wellClosed : (parse 0 wellClosed).2 = [] ∧
    KeepsUnits (Lexer.lex 0 wellClosed).1 (parse 0 wellClosed).1 := by
  have hclean : (parse 0 wellClosed).2 = [] := by decide +kernel
  have hclear : HeadsClear (Lexer.lex 0 wellClosed).1.reverse := by decide +kernel
  exact ⟨hclean, (parse_keepsUnits_iff hclean).2.2 hclear⟩

/-- The clause that lacks its semicolon takes the entity with it. -/
def unclosedLibrary : String := "library ieee entity e is end;"

theorem parse_loses_entity : (parse 0 unclosedLibrary).2 = [] ∧
    ¬ KeepsUnits (Lexer.lex 0 unclosedLibrary).1 (parse 0 unclosedLibrary).1 := by
  refine ⟨by decide +kernel, fun hkeeps => ?_⟩
  have hsuffix : [⟨.keyword .kwEntity, "entity", ⟨0, 13, 19⟩⟩, ⟨.identifier, "ieee", ⟨0, 8, 12⟩⟩,
      ⟨.keyword .kwLibrary, "library", ⟨0, 0, 7⟩⟩] <:+ (Lexer.lex 0 unclosedLibrary).1.reverse := by
    decide +kernel
  have hnone : (parse 0 unclosedLibrary).1.entities.map (·.span.start) = [] := by decide +kernel
  have hone := hkeeps.entities.once _ _ hsuffix rfl
  rw [hnone] at hone
  cases hone

end Syntax

end HdlLint
