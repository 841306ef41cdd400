import HdlLint.Proofs.Agreement
import HdlLint.Proofs.ReadUnits

/-!
# Lists of rules always go on

A list of declarations, statements or units is read in rounds. A round reads one item or, where the
item is faulty, skips to a token behind it; either way it passes a token (`turn_passes`). So the fuel
of a list never runs out.
-/

namespace HdlLint.Syntax.Parse
variable {α β : Type} {s : ParseState}

/-- However the rule ends, it has passed a token. -/
def Passes (p : Parse α) (s : ParseState) : Prop := (p s).2.rest.length < s.rest.length

theorem Passes.lt {p : Parse α} {o : Option α} {s' : ParseState} (h : Passes p s)
    (hrun : p s = (o, s')) : s'.rest.length < s.rest.length := by
  rwa [Passes, hrun] at h

theorem Passes.bind {p : Parse α} {f : α → Parse β} (h : Passes p s) (hf : ∀ a, Steady (f a)) :
    Passes (p >>= f) s := by
  unfold Passes at h ⊢
  rcases hp : p s with ⟨_ | a, s'⟩
  · rw [run_bind_none hp]
    rwa [hp] at h
  · rw [run_bind_some hp]
    rw [hp] at h
    exact Nat.lt_of_le_of_lt ((hf a).length_le s') h

theorem Passes.of_run {p : Parse α} {f : α → Parse β} {a : α} (hp : p s = (some a, s))
    (h : Passes (f a) s) : Passes (p >>= f) s := by
  rwa [Passes, run_bind_some hp]

theorem Passes.get {f : ParseState → Parse α} (h : Passes (f s) s) :
    Passes (MonadState.get >>= f) s := h

theorem advance_passes (h : s.kind ≠ .eof) : Passes advance s := ParseState.length_advance_lt h

/-! ### Skipping -/

section
variable {stop : ParseState → Bool}

theorem skipUntil_of_stop (h : stop s) : skipUntil stop s = (some (), s) := by
  show (if s.kind == .eof || stop s then _ else _ : Parse Unit) s = _
  rw [if_pos (by simp [h])]
  rfl

theorem skipUntil_passes (hs : s.kind ≠ .eof) (h : stop s = false) : Passes (skipUntil stop) s := by
  have hrun : skipUntil stop s = (do advance; skipUntilAt stop s.rest.length : Parse Unit) s := by
    show (if s.kind == .eof || stop s then _ else _ : Parse Unit) s = _
    rw [if_neg (by simp [h, hs])]
  rw [Passes, hrun]
  exact (advance_passes hs).bind fun _ r => (reads_suffix r).skipUntilAt stop _

end

theorem skipSentence_passes (h : s.kind ≠ .eof) : Passes skipSentence s := by
  have hsteady : ∀ _ : Unit, Steady (do let _ ← eatSign .semicolon) :=
    fun _ r => ((reads_suffix r).eatSign _).bind fun _ => Keeps.pure
  by_cases hstop : s.kind = .symbol .semicolon
  · have hrun : skipUntil (fun s => s.kind == .symbol .semicolon) s = (some (), s) :=
      skipUntil_of_stop (beq_iff_eq.2 hstop)
    have heat : Passes (eatSign .semicolon) s := by
      rw [Passes, eatSign, eat_of_kind hstop]
      exact ParseState.length_advance_lt h
    exact .of_run hrun (heat.bind fun _ _ => Keeps.pure)
  · have hskip : Passes (skipUntil fun s => s.kind == .symbol .semicolon) s :=
      skipUntil_passes h (beq_false_of_ne hstop)
    exact hskip.bind hsteady

theorem skipPastEnd_passes (w : Keyword) (h : s.kind ≠ .eof) : Passes (skipPastEnd w) s := by
  by_cases hstop : (s.kind == .keyword .kwEnd && s.kindAt 1 == .keyword w) = true
  · refine .of_run (skipUntil_of_stop hstop) ?_
    show Passes (if s.kind == .eof then _ else _ : Parse Unit) s
    rw [if_neg (by simp [h])]
    exact (advance_passes h).bind fun _ r => (reads_suffix r).skipSentence
  · refine (skipUntil_passes h (Bool.eq_false_iff.2 hstop)).bind fun _ r => ?_
    exact Keeps.get.bind fun _ => .ite Keeps.pure
      ((reads_suffix r).advance.bind fun _ => (reads_suffix r).skipSentence)

theorem skipToUnit_passes (h : s.kind ≠ .eof) : Passes skipToUnit s :=
  (advance_passes h).bind fun _ r => (reads_suffix r).skipUntil _

theorem skipConcurrent_passes (head : TokenKind) (h : s.kind ≠ .eof) :
    Passes (skipConcurrent head) s := by
  unfold skipConcurrent
  split
  · exact skipPastEnd_passes _ h
  · exact skipPastEnd_passes _ h
  · exact skipSentence_passes h

/-! ### Rules that never fail -/

/-- The rule gives something from every state. -/
def Total (p : Parse α) : Prop := ∀ s, ∃ a s', p s = (some a, s')

namespace Total

theorem pure (a : α) : Total (Pure.pure a : Parse α) := fun s => ⟨a, s, rfl⟩

theorem get : Total (MonadState.get : Parse ParseState) := fun s => ⟨s, s, rfl⟩

theorem attempt (p : Parse α) : Total (Parse.attempt p) := fun _ => ⟨_, _, rfl⟩

theorem advance : Total Parse.advance := fun _ => ⟨_, _, rfl⟩

theorem bind {p : Parse α} {f : α → Parse β} (hp : Total p) (hf : ∀ a, Total (f a)) :
    Total (p >>= f) := by
  intro s
  obtain ⟨a, s', hrun⟩ := hp s
  rw [run_bind_some hrun]
  exact hf a s'

theorem ite {c : Prop} [Decidable c] {p q : Parse α} (hp : Total p) (hq : Total q) :
    Total (if c then p else q) := by
  by_cases hc : c
  · rwa [if_pos hc]
  · rwa [if_neg hc]

end Total

theorem skipUntil_total (stop : ParseState → Bool) : Total (skipUntil stop) := by
  have hat : ∀ n, Total (skipUntilAt stop n) := by
    intro n
    induction n with
    | zero => exact .pure ()
    | succ n ih => exact Total.get.bind fun _ => .ite (.pure ()) (Total.advance.bind fun _ => ih)
  exact Total.get.bind fun _ => hat _

theorem skipSentence_total : Total skipSentence := by
  have heat : Total (eatSign .semicolon) :=
    Total.get.bind fun _ => .ite (Total.advance.bind fun _ => .pure _) (.pure _)
  exact (skipUntil_total _).bind fun _ => heat.bind fun _ => .pure ()

theorem skipToUnit_total : Total skipToUnit := Total.advance.bind fun _ => skipUntil_total _

/-! ### Rounds -/

/-- Reads an item or, if it is faulty, skips. -/
def turn (item : Parse α) (skip : Parse Unit) : Parse (Option α) := do
  match ← attempt item with
  | some a => return some a
  | none =>
    skip
    return none

theorem attempt_run {p : Parse α} {o : Option α} {s' : ParseState} (h : p s = (o, s')) :
    attempt p s = (some o, s') := by
  show ((some (p s).1, (p s).2) : Option (Option α) × ParseState) = _
  rw [h]

theorem turn_congr {item item' : Parse α} (skip : Parse Unit) (h : item s = item' s) :
    turn item skip s = turn item' skip s := by
  have hattempt : attempt item s = attempt item' s := by
    rcases hrun : item' s with ⟨o, s'⟩
    rw [attempt_run hrun, attempt_run (h.trans hrun)]
  exact run_bind_of_eq hattempt

/-- An item that was read has passed a token. After a faulty one, either it has, or the text is as it
was, and then what follows passes a token. -/
theorem attempt_passes {item : Parse α} {k : Option α → Parse β} (hitem : Shortens item)
    (hsteady : Steady item) (hk : ∀ o, Steady (k o))
    (hnone : ∀ t : ParseState, t.kind ≠ .eof → Passes (k none) t) (hs : s.kind ≠ .eof) :
    Passes (attempt item >>= k) s := by
  rcases hrun : item s with ⟨_ | a, s'⟩
  · rw [Passes, run_bind_some (attempt_run hrun)]
    have hsuffix : s'.rest <:+ s.rest := by
      have h := hsteady.suffix s
      rwa [hrun] at h
    by_cases heq : s'.rest = s.rest
    · have hkind : s'.kind ≠ .eof := by rwa [ParseState.kind, ParseState.kindAt, heq]
      rw [← heq]
      exact hnone s' hkind
    · have hlt : s'.rest.length < s.rest.length :=
        Nat.lt_of_le_of_ne hsuffix.length_le fun hlen => heq (hsuffix.eq_of_length hlen)
      exact Nat.lt_of_le_of_lt ((hk none).length_le s') hlt
  · rw [Passes, run_bind_some (attempt_run hrun)]
    exact Nat.lt_of_le_of_lt ((hk (some a)).length_le s') (hitem s a s' hrun)

theorem turn_passes {item : Parse α} {skip : Parse Unit} (hitem : Shortens item)
    (hsteady : Steady item) (hskip : Steady skip)
    (hpasses : ∀ t : ParseState, t.kind ≠ .eof → Passes skip t) (hs : s.kind ≠ .eof) :
    Passes (turn item skip) s := by
  refine attempt_passes hitem hsteady (fun o r => ?_) (fun t ht => ?_) hs
  · cases o with
    | some a => exact Keeps.pure
    | none => exact (hskip r).bind fun _ => Keeps.pure
  · exact (hpasses t ht).bind fun _ _ => Keeps.pure

/-! ### Items -/

theorem AgreesAt.of_passes {p : Parse α} (h : Passes p s) : AgreesAt s.rest.length p p s :=
  ⟨rfl, fun _ _ ha => h.lt ha⟩

theorem AgreesAt.shortens {p : Parse α} (h : ∀ s : ParseState, AgreesAt s.rest.length p p s) :
    Shortens p :=
  fun s => (h s).2

theorem Shortens.after {p : Parse α} {f : α → Parse β} (hp : Steady p) (hf : ∀ a, Shortens (f a)) :
    Shortens (p >>= f) := by
  intro s b s' h
  rcases hrun : p s with ⟨_ | a, t⟩
  · rw [run_bind_none hrun] at h
    cases h
  · rw [run_bind_some hrun] at h
    have hle := hp.length_le s
    rw [hrun] at hle
    exact Nat.lt_of_lt_of_le (hf a t b s' h) hle

theorem decl_shortens : Shortens decl := by
  refine AgreesAt.shortens fun s => ?_
  have hadvance : ∀ {p : Parse (List Decl)}, s.kind ≠ .eof → Steady p →
      AgreesAt s.rest.length (do advance; p) (do advance; p) s :=
    fun hs hp => (AgreesAt.advance hs (Nat.lt_succ_self _)).bind fun _ => .of_steady hp
  refine AgreesAt.get ?_
  split
  · rename_i hkind
    exact hadvance (by simp [hkind]) fun r => ((reads_suffix r).signalDecl trivial).keeps
  · rename_i hkind
    exact hadvance (by simp [hkind]) fun r => ((reads_suffix r).constantDecl trivial).keeps
  · rename_i hkind
    exact hadvance (by simp [hkind]) fun r => ((reads_suffix r).enumerationDecl trivial).keeps
  · rename_i hkind
    have hskip : Passes (skipPastEnd .kwComponent) s := skipPastEnd_passes _ (by simp [hkind])
    exact (AgreesAt.of_passes hskip).bind fun _ => .pure _
  · exact .of_none rfl
  · exact .of_none rfl

theorem expr_steady : Steady expr := fun r => (reads_suffix r).expr.keeps

theorem lastSpan_steady : Steady lastSpan := fun r => (reads_suffix r).lastSpan.keeps

theorem target_shortens : Shortens target := by
  refine ident_shortens.bind fun i r => ((reads_suffix r).eatSign _).bind fun _ => .ite ?_ Keeps.pure
  have hclose : ∀ selector : Selector, Keeps (fun s => s.rest <:+ r)
      (do let _ ← expectSign .rightParen; return ⟨i, some selector⟩ : Parse Target) :=
    fun _ => ((reads_suffix r).expectSign _).bind fun _ _ => Keeps.pure
  refine (expr_steady r).bind fun first => Keeps.atDirection.bind fun _ => .ite ?_ (hclose _)
  exact ((reads_suffix r).rangeAfter (expr_steady r) trivial).bind fun _ _ => hclose _

theorem nullStmt_shortens : Shortens nullStmt :=
  (expect_shortens (by nofun)).bind fun _ r => ((reads_suffix r).expectSign _).bind fun _ _ =>
    (lastSpan_steady r).bind fun _ => Keeps.pure

theorem assignAfter_steady (t : Target) (start : Span) : Steady (assignAfter t start) :=
  fun r => ((reads_suffix r).assignAfter t.within_true trivial).keeps

theorem assignStmt_shortens : Shortens assignStmt := by
  refine .after (fun r => (reads_suffix r).span) fun start => ?_
  refine target_shortens.bind fun t r => Keeps.kind.bind fun k => ?_
  split
  · exact (reads_suffix r).advance.bind fun _ => assignAfter_steady t start r
  · exact (reads_suffix r).unsupported _
  · exact (reads_suffix r).expected _

section
variable {m : Nat} {b b' : Parse (List Stmt)} (hb : Agrees m b b')
include hb

theorem branchesAt_agrees (n : Nat) : Agrees m (branchesAt b n) (branchesAt b' n) := by
  induction n with
  | zero => exact .pure []
  | succ n ih =>
    refine (Agrees.of_steady expr_steady).bind fun _ => ?_
    refine (Agrees.of_steady fun r => (reads_suffix r).expectWord _).bind fun _ => hb.bind fun _ => ?_
    exact (Agrees.of_steady fun r => (reads_suffix r).eatWord _).bind fun _ =>
      .ite (ih.bind fun _ => .pure _) (.pure _)

theorem ifStmt_agrees (hs : s.rest.length < m + 1) : AgreesAt m (ifStmt b) (ifStmt b') s := by
  refine (AgreesAt.of_shortens (expect_shortens (by nofun)) hs).bind fun start => ?_
  refine (Agrees.fueled (branchesAt_agrees hb)).bind fun branches => ?_
  have hend : ∀ otherwise : Option (List Stmt), Steady (do
      let _ ← expectWord .kwEnd
      let _ ← expectWord .kwIf
      eatName
      let _ ← expectSign .semicolon
      return .ifs branches otherwise (start.cover (← lastSpan)) : Parse Stmt) :=
    fun _ r => ((reads_suffix r).expectWord _).bind fun _ _ => ((reads_suffix r).expectWord _).bind
      fun _ _ => (reads_suffix r).eatName.bind fun _ => ((reads_suffix r).expectSign _).bind
        fun _ _ => (lastSpan_steady r).bind fun _ => Keeps.pure
  exact (Agrees.of_steady fun r => (reads_suffix r).eatWord _).bind fun _ =>
    .ite (hb.bind fun body => .of_steady (hend (some body))) (.of_steady (hend none))

theorem armsAt_agrees (n : Nat) (others : Option (List Stmt)) :
    Agrees m (armsAt b n others) (armsAt b' n others) := by
  induction n generalizing others with
  | zero => exact .pure _
  | succ n ih =>
    refine (Agrees.of_steady fun r => (reads_suffix r).span).bind fun start => ?_
    refine (Agrees.of_steady fun r => (reads_suffix r).eatWord _).bind fun _ => .ite ?_ (.pure _)
    refine (Agrees.of_steady fun r => (reads_suffix r).eatWord _).bind fun _ => .ite ?_ ?_
    · refine (Agrees.of_steady fun r => (reads_suffix r).expectSign _).bind fun _ => ?_
      exact hb.bind fun body => ih (some body)
    · refine (Agrees.of_steady fun r => (reads_suffix r).choices.keeps).bind fun _ => ?_
      refine (Agrees.of_steady fun r => (reads_suffix r).expectSign _).bind fun _ => hb.bind fun _ => ?_
      exact (Agrees.of_steady lastSpan_steady).bind fun _ => (ih others).bind fun _ => .pure _

theorem caseStmt_agrees (hs : s.rest.length < m + 1) : AgreesAt m (caseStmt b) (caseStmt b') s := by
  refine (AgreesAt.of_shortens (expect_shortens (by nofun)) hs).bind fun start => ?_
  refine (Agrees.of_steady expr_steady).bind fun _ => ?_
  refine (Agrees.of_steady fun r => (reads_suffix r).expectWord _).bind fun _ => ?_
  refine (Agrees.fueled fun n => armsAt_agrees hb n none).bind fun r => .of_steady fun r => ?_
  exact ((reads_suffix r).expectWord _).bind fun _ _ => ((reads_suffix r).expectWord _).bind
    fun _ _ => (reads_suffix r).eatName.bind fun _ => ((reads_suffix r).expectSign _).bind
      fun _ _ => (lastSpan_steady r).bind fun _ => Keeps.pure

/-- A statement calls for the statements inside it only after its first word. -/
theorem stmtOf_agrees : AgreesPast m (stmtOf b) (stmtOf b') := by
  intro s hs
  have hinner : Agrees s.rest.length b b' := fun t ht => hb t (by omega)
  have hlabel : Steady skipLabel := fun r => (reads_suffix r).skipLabel
  refine (Agrees.of_steady hlabel s (Nat.lt_succ_self _)).andThen fun _ t ht => AgreesAt.get ?_
  split
  · exact ifStmt_agrees hinner ht
  · exact caseStmt_agrees hinner ht
  · exact .of_shortens nullStmt_shortens ht
  · exact .of_shortens assignStmt_shortens ht
  · exact .of_none rfl
  · exact .of_none rfl
  · exact .of_none rfl

end

theorem name_shortens : Shortens name := ident_shortens.bind fun _ _ => Keeps.pure

theorem process_shortens (label : Option String) (start : Span) : Shortens (process label start) :=
  (expect_shortens (by nofun)).bind fun _ r => (reads_suffix r).sensitivity.keeps.bind fun _ =>
    ((reads_suffix r).eatWord _).bind fun _ => (reads_suffix r).beginProcess.bind fun _ =>
      (reads_suffix r).block.keeps.bind fun _ => ((reads_suffix r).expectWord _).bind fun _ _ =>
        ((reads_suffix r).expectWord _).bind fun _ _ => (reads_suffix r).eatName.bind fun _ =>
          ((reads_suffix r).expectSign _).bind fun _ _ => (lastSpan_steady r).bind fun _ => Keeps.pure

theorem instanceAfter_steady (label entity : String) (architecture : Option String) (start : Span) :
    Steady (instanceAfter label entity architecture start) :=
  fun r => ((reads_suffix r).instanceAfter trivial label entity architecture).keeps

theorem requireLabel_steady (label : Option String) (start : Span) :
    Steady (requireLabel label start) :=
  fun r => (reads_suffix r).requireLabel trivial label

theorem entityInstance_shortens (label : Option String) (start : Span) :
    Shortens (entityInstance label start) := by
  refine .after (requireLabel_steady label start) fun l => ?_
  refine (expect_shortens (by nofun)).bind fun _ r => (reads_suffix r).name.bind fun _ => ?_
  refine ((reads_suffix r).eatSign _).bind fun _ =>
    .ite ((reads_suffix r).name.bind fun entity => ?_) (Keeps.pure.bind fun entity => ?_)
  all_goals
    refine ((reads_suffix r).eatSign _).bind fun _ => .ite ((reads_suffix r).name.bind fun _ =>
      ((reads_suffix r).expectSign _).bind fun _ _ => ?_) ?_
  all_goals
    exact Keeps.pure.bind fun architecture => instanceAfter_steady l entity architecture start r

theorem componentInstance_shortens (label : Option String) (start : Span) :
    Shortens (componentInstance label start) := by
  refine .after (requireLabel_steady label start) fun l => ?_
  refine .after (fun r => (reads_suffix r).eatWord _) fun _ => ?_
  exact name_shortens.bind fun entity => instanceAfter_steady l entity none start

theorem selectedAssign_shortens (label : Option String) (start : Span) :
    Shortens (selectedAssign label start) := by
  refine (expect_shortens (by nofun)).bind fun _ r => (expr_steady r).bind fun _ => ?_
  refine ((reads_suffix r).expectWord _).bind fun _ _ => (reads_suffix r).target.keeps.bind fun t => ?_
  refine ((reads_suffix r).expectSign _).bind fun _ _ => ?_
  have hselected : Keeps (fun s => s.rest <:+ r) (fueled fun n => selectedAt t n none) :=
    .fueled fun n => ((reads_suffix r).selectedAt t.within_true n none trivial).keeps
  exact hselected.bind fun _ => ((reads_suffix r).expectSign _).bind fun _ _ =>
    (lastSpan_steady r).bind fun _ => Keeps.pure

theorem concurrentAssign_shortens (label : Option String) (start : Span) :
    Shortens (concurrentAssign label start) :=
  target_shortens.bind fun t r => ((reads_suffix r).expectSign _).bind fun _ _ =>
    (assignAfter_steady t start r).bind fun _ => (lastSpan_steady r).bind fun _ => Keeps.pure

section
variable {m : Nat} {b b' : Parse (List Concurrent)} (hb : Agrees m b b')
include hb

theorem generate_agrees (label : Option String) (start : Span) (hs : s.rest.length < m + 1) :
    AgreesAt m (generate b label start) (generate b' label start) s := by
  have hlabel := Agrees.of_steady (requireLabel_steady label start) s (Nat.lt_succ_self _)
  refine hlabel.andThen fun l t ht => ?_
  refine (AgreesAt.of_shortens (expect_shortens (by nofun)) (by omega)).bind fun _ => ?_
  refine (Agrees.of_steady fun r => (reads_suffix r).name).bind fun var => ?_
  refine (Agrees.of_steady fun r => (reads_suffix r).expectWord _).bind fun _ => ?_
  refine (Agrees.of_steady fun r => (reads_suffix r).range.keeps).bind fun bounds => ?_
  refine (Agrees.of_steady fun r => (reads_suffix r).expectWord _).bind fun _ => ?_
  refine (Agrees.of_steady fun r => Keeps.kind).bind fun k => ?_
  have hrest : ∀ ds : List Decl, Agrees m (do
      let stmts ← b
      let _ ← expectWord .kwEnd
      let _ ← expectWord .kwGenerate
      eatName
      let _ ← expectSign .semicolon
      return .generate ⟨l, var, bounds, ds, stmts, start.cover (← lastSpan)⟩ : Parse Concurrent) (do
      let stmts ← b'
      let _ ← expectWord .kwEnd
      let _ ← expectWord .kwGenerate
      eatName
      let _ ← expectSign .semicolon
      return .generate ⟨l, var, bounds, ds, stmts, start.cover (← lastSpan)⟩ : Parse Concurrent) :=
    fun _ => hb.bind fun _ => .of_steady fun r => ((reads_suffix r).expectWord _).bind fun _ _ =>
      ((reads_suffix r).expectWord _).bind fun _ _ => (reads_suffix r).eatName.bind fun _ =>
        ((reads_suffix r).expectSign _).bind fun _ _ => (lastSpan_steady r).bind fun _ => Keeps.pure
  split
  case h_5 => exact (Agrees.of_steady fun r => (reads_suffix r).eatWord _).bind fun _ => hrest []
  all_goals
    refine (Agrees.of_steady fun r => (reads_suffix r).decls.keeps).bind fun ds => ?_
    exact (Agrees.of_steady fun r => (reads_suffix r).expectWord _).bind fun _ => hrest ds

/-- A statement calls for the statements inside it only after its first word. -/
theorem concurrentOf_agrees : AgreesPast m (concurrentOf b) (concurrentOf b') := by
  intro s hs
  have hinner : Agrees s.rest.length b b' := fun t ht => hb t (by omega)
  have hspan := Agrees.of_steady (fun r => (reads_suffix r).span) s (Nat.lt_succ_self _)
  refine hspan.andThen fun start t ht => ?_
  have hlabel := Agrees.of_steady (fun r => (reads_suffix r).label?) t ht
  refine hlabel.andThen fun label u hu => AgreesAt.get ?_
  have hu : u.rest.length < s.rest.length + 1 := by omega
  have hprocess : ∀ {p : Parse Process}, Shortens p →
      AgreesAt s.rest.length (do return .process (← p) : Parse Concurrent)
        (do return .process (← p) : Parse Concurrent) u :=
    fun hp => (AgreesAt.of_shortens hp hu).bind fun _ => .pure _
  split
  · exact hprocess (process_shortens label start)
  · exact .of_shortens (entityInstance_shortens label start) hu
  · exact .of_shortens (componentInstance_shortens label start) hu
  · exact generate_agrees hinner label start hu
  · exact .of_none rfl
  · exact hprocess (selectedAssign_shortens label start)
  · exact .ite (.of_shortens (componentInstance_shortens label start) hu)
      (hprocess (concurrentAssign_shortens label start))
  · exact .of_none rfl

end

theorem architecture_shortens : Shortens architecture :=
  (expect_shortens (by nofun)).bind fun _ r => (reads_suffix r).name.bind fun _ =>
    ((reads_suffix r).expectWord _).bind fun _ _ => (reads_suffix r).name.bind fun _ =>
      ((reads_suffix r).expectWord _).bind fun _ _ => (reads_suffix r).decls.keeps.bind fun _ =>
        ((reads_suffix r).expectWord _).bind fun _ _ => (reads_suffix r).concurrents.keeps.bind
          fun _ => ((reads_suffix r).expectWord _).bind fun _ _ =>
            ((reads_suffix r).finishEnd _).bind fun _ => (lastSpan_steady r).bind fun _ => Keeps.pure

theorem entity_shortens : Shortens entity := by
  refine (expect_shortens (by nofun)).bind fun _ r => (reads_suffix r).name.bind fun _ =>
    ((reads_suffix r).expectWord _).bind fun _ _ => (Keeps.atKind _).bind fun _ => ?_
  refine .ite ((reads_suffix r).generics.keeps.bind fun _ => ?_) (Keeps.pure.bind fun _ => ?_)
  all_goals
    refine (Keeps.atKind _).bind fun _ =>
      .ite ((reads_suffix r).ports.keeps.bind fun _ => ?_) (Keeps.pure.bind fun _ => ?_)
  all_goals
    refine (Keeps.atKind _).bind fun _ =>
      .ite (Keeps.bind ((reads_suffix r).unsupported _) fun _ => ?_) ?_
  all_goals
    exact ((reads_suffix r).expectWord _).bind fun _ _ => ((reads_suffix r).finishEnd _).bind
      fun _ => (lastSpan_steady r).bind fun _ => Keeps.pure

end HdlLint.Syntax.Parse
