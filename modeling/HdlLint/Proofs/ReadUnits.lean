import HdlLint.Proofs.Reading

/-!
# Reading statements and units

The lemmas of `Reads` for declarations, statements and units, up to `Reads.units`: all spans of the
units that a text forms have `P`, and so have the faults that are reported on the way.
-/

namespace HdlLint.Syntax

namespace Parse

namespace Reads
variable {I : ParseState → Prop} {P : Span → Prop} {α : Type} (h : Reads I P)
include h

/-! ### Declarations -/

theorem subtype : Ensures I Parse.subtype (Subtype.Within P) := by
  have hwhole : ∀ {start : Span} {mark : String} {bounds : Option Range}, P start →
      (∀ r ∈ bounds, r.Within P) →
        Ensures I (do return ⟨mark, bounds, start.cover (← Parse.lastSpan)⟩) (Subtype.Within P) :=
    fun hstart hbounds => h.lastSpan.bind fun _ hlast => .pure ⟨hbounds, h.cover _ _ hstart hlast⟩
  refine h.span.bind fun start hstart => h.name.bind fun mark => (h.eatSign _).bind fun _ => .ite ?_ ?_
  · exact h.range.bind fun r hr => (h.expectSign _).bind fun _ _ => hwhole hstart (by simp [hr])
  · refine (h.eatWord _).bind fun _ => .ite ?_ (hwhole hstart nofun)
    exact h.range.bind fun r hr => hwhole hstart (by simp [hr])

theorem initial : Ensures I Parse.initial fun init => ∀ e ∈ init, e.Within P :=
  (h.eatSign _).bind fun _ => .ite (h.expr.bind fun _ he => .pure (by simp [he])) (.pure nofun)

theorem genericType : Keeps I Parse.genericType := by
  refine Keeps.get.bind fun s => ?_
  split
  iterate 4 exact h.advance.bind fun _ => Keeps.pure
  · exact .ite (h.unsupported _) (h.expected _)

theorem genericGroup : Ensures I Parse.genericGroup fun gs => ∀ g ∈ gs, g.Within P := by
  refine (h.eatWord _).bind fun _ => h.span.bind fun start hstart => h.names.bind fun ns =>
    (h.expectSign _).bind fun _ _ => h.genericType.bind fun type => (h.eatWord _).bind fun _ =>
      .ite (h.range.bind fun _ _ => ?_) ?_
  all_goals
    refine h.initial.bind fun init hinit => h.lastSpan.bind fun _ hlast => .pure ?_
    exact List.forall_mem_map.2 fun _ _ => ⟨hinit, h.cover _ _ hstart hlast⟩

theorem mode : Keeps I Parse.mode := by
  refine Keeps.kind.bind fun k => ?_
  split
  iterate 4 exact h.advance.bind fun _ => Keeps.pure
  · exact Keeps.pure

theorem portGroup : Ensures I Parse.portGroup fun ps => ∀ p ∈ ps, p.Within P := by
  refine (h.eatWord _).bind fun _ => h.span.bind fun start hstart => h.names.bind fun ns =>
    (h.expectSign _).bind fun _ _ => h.mode.bind fun m => h.subtype.bind fun t ht =>
      h.initial.bind fun _ _ => h.lastSpan.bind fun _ hlast => .pure ?_
  exact List.forall_mem_map.2 fun _ _ => ⟨ht, h.cover _ _ hstart hlast⟩

theorem interface (word : Keyword) {group : Parse (List α)} {Q : α → Prop}
    (hgroup : Ensures I group fun as => ∀ a ∈ as, Q a) :
    Ensures I (Parse.interface word group) fun as => ∀ a ∈ as, Q a := by
  refine (h.expectWord _).bind fun _ _ => (h.expectSign _).bind fun _ _ =>
    (h.separated _ hgroup).bind fun groups hgroups => (h.expectSign _).bind fun _ _ =>
      (h.expectSign _).bind fun _ _ => .pure fun a ha => ?_
  obtain ⟨as, has, ha⟩ := List.mem_flatten.1 ha
  exact hgroups.2 as has a ha

theorem generics : Ensures I Parse.generics fun gs => ∀ g ∈ gs, g.Within P :=
  h.interface _ h.genericGroup

theorem ports : Ensures I Parse.ports fun ps => ∀ p ∈ ps, p.Within P := h.interface _ h.portGroup

section
variable {start : Span} (hstart : P start)
include hstart

theorem signalDecl : Ensures I (Parse.signalDecl start) fun ds => ∀ d ∈ ds, d.Within P := by
  refine h.names.bind fun ns => (h.expectSign _).bind fun _ _ => h.subtype.bind fun t ht =>
    h.initial.bind fun init hinit => (h.expectSign _).bind fun _ _ =>
      h.lastSpan.bind fun _ hlast => .pure ?_
  exact List.forall_mem_map.2 fun _ _ => ⟨ht, hinit, h.cover _ _ hstart hlast⟩

theorem constantDecl : Ensures I (Parse.constantDecl start) fun ds => ∀ d ∈ ds, d.Within P := by
  refine h.names.bind fun ns => (h.expectSign _).bind fun _ _ => h.subtype.bind fun t ht =>
    (h.expectSign _).bind fun _ _ => h.expr.bind fun v hv => (h.expectSign _).bind fun _ _ =>
      h.lastSpan.bind fun _ hlast => .pure ?_
  exact List.forall_mem_map.2 fun _ _ => ⟨ht, hv, h.cover _ _ hstart hlast⟩

theorem enumerationDecl :
    Ensures I (Parse.enumerationDecl start) fun ds => ∀ d ∈ ds, d.Within P := by
  refine h.name.bind fun n => (h.expectWord _).bind fun _ _ => (h.eatSign _).bind fun _ =>
    .ite ?_ (h.unsupported _)
  refine h.names.bind fun ls => (h.expectSign _).bind fun _ _ => (h.expectSign _).bind fun _ _ =>
    h.lastSpan.bind fun _ hlast => .pure ?_
  exact List.forall_mem_singleton.2 (h.cover _ _ hstart hlast)

end

theorem decl : Ensures I Parse.decl fun ds => ∀ d ∈ ds, d.Within P := by
  refine Ensures.get.bind fun s hs => ?_
  have hstart := h.here s hs
  split
  · exact h.advance.bind fun _ => h.signalDecl hstart
  · exact h.advance.bind fun _ => h.constantDecl hstart
  · exact h.advance.bind fun _ => h.enumerationDecl hstart
  · exact (h.skipPastEnd _).bind fun _ => .pure nofun
  · exact h.unsupported _
  · exact h.expected _

theorem declsAt (n : Nat) : Ensures I (Parse.declsAt n) fun ds => ∀ d ∈ ds, d.Within P := by
  induction n with
  | zero => exact .pure nofun
  | succ n ih =>
    refine Keeps.get.bind fun s => .ite (.pure nofun) (h.decl.attempt.bind fun ds hds => ?_)
    split
    · exact ih.bind fun more hmore => .pure (List.forall_mem_append.2 ⟨hds _ rfl, hmore⟩)
    · exact h.skipSentence.bind fun _ => ih

theorem decls : Ensures I Parse.decls fun ds => ∀ d ∈ ds, d.Within P := .fueled h.declsAt

/-! ### Statements of a process -/

theorem target : Ensures I Parse.target (Target.Within P) := by
  refine h.ident.bind fun i hi => (h.eatSign _).bind fun _ => .ite ?_ (.pure ⟨hi.within, nofun⟩)
  have hclose : ∀ selector : Selector, selector.Within P →
      Ensures I (do let _ ← Parse.expectSign .rightParen; return ⟨i, some selector⟩)
        (Target.Within P) :=
    fun _ hselector => (h.expectSign _).bind fun _ _ => .pure ⟨hi.within, by simp [hselector]⟩
  refine h.expr.bind fun first hfirst => Keeps.atDirection.bind fun _ => .ite ?_ (hclose (.index first) hfirst)
  exact (h.rangeAfter h.expr hfirst).bind fun r hr => hclose (.slice r) hr

theorem skipDelay : Keeps I Parse.skipDelay :=
  (h.eatWord _).bind fun _ => .ite (h.skipUntil _) Keeps.pure

theorem delayedValue : Ensures I Parse.delayedValue fun v => v.1.Within P ∧ P v.2 :=
  h.span.bind fun _ hstart => h.expr.bind fun _ he => h.skipDelay.bind fun _ =>
    h.lastSpan.bind fun _ hlast => .pure ⟨he, h.cover _ _ hstart hlast⟩

section
variable {target : Target} (htarget : target.Within P)
include htarget

theorem alternativesAt (n : Nat) {v : Expr × Span} (hv : v.1.Within P ∧ P v.2) :
    Ensures I (Parse.alternativesAt target n v)
      fun r => BranchesWithin P r.1 ∧ OptionWithin P r.2 := by
  induction n generalizing v with
  | zero => exact .pure ⟨trivial, trivial⟩
  | succ n ih =>
    have hassign : BlockWithin P [.assign target v.1 v.2] := ⟨⟨htarget, hv⟩, trivial⟩
    refine (h.eatWord _).bind fun _ => .ite ?_ (.pure ⟨trivial, hassign⟩)
    refine h.expr.bind fun c hc => (h.eatWord _).bind fun _ =>
      .ite ?_ (.pure ⟨⟨hc, hassign, trivial⟩, trivial⟩)
    exact h.delayedValue.bind fun w hw => (ih hw).bind fun r hr =>
      .pure ⟨⟨hc, hassign, hr.1⟩, hr.2⟩

theorem assignAfter {start : Span} (hstart : P start) :
    Ensures I (Parse.assignAfter target start) (Stmt.Within P) := by
  refine h.delayedValue.bind fun v hv => (Keeps.atKind _).bind fun _ => .ite ?_ ?_
  · refine (Ensures.fueled fun n => h.alternativesAt htarget n hv).bind fun r hr => ?_
    exact (h.expectSign _).bind fun _ _ => h.lastSpan.bind fun _ hlast =>
      .pure ⟨hr.1, hr.2, h.cover _ _ hstart hlast⟩
  · exact (h.expectSign _).bind fun _ _ => h.lastSpan.bind fun _ hlast =>
      .pure ⟨htarget, hv.1, h.cover _ _ hstart hlast⟩

end

theorem choice : Ensures I Parse.choice (Expr.Within P) :=
  h.expr.bind fun _ he => Keeps.atDirection.bind fun _ => .ite (h.unsupported _)
    ((Keeps.atKind _).bind fun _ => .ite (h.unsupported _) (.pure he))

theorem choices : Ensures I Parse.choices (ExprsWithin P) :=
  (h.separated _ h.choice).mono fun _ hes => exprsWithin_iff.2 hes.2

theorem blockAt {stmt : Parse Stmt} (hstmt : Ensures I stmt (Stmt.Within P)) (n : Nat) :
    Ensures I (Parse.blockAt stmt n) (BlockWithin P) := by
  induction n with
  | zero => exact .pure trivial
  | succ n ih =>
    refine Keeps.kind.bind fun k => .ite (.pure trivial) (hstmt.attempt.bind fun s hs => ?_)
    split
    · exact ih.bind fun ss hss => .pure ⟨hs _ rfl, hss⟩
    · exact h.skipSentence.bind fun _ => ih

section Nested
variable {block : Parse (List Stmt)} (hblock : Ensures I block (BlockWithin P))
include hblock

theorem branchesAt (n : Nat) : Ensures I (Parse.branchesAt block n) (BranchesWithin P) := by
  induction n with
  | zero => exact .pure trivial
  | succ n ih =>
    refine h.expr.bind fun c hc => (h.expectWord _).bind fun _ _ => hblock.bind fun b hb =>
      (h.eatWord _).bind fun _ => .ite ?_ (.pure ⟨hc, hb, trivial⟩)
    exact ih.bind fun bs hbs => .pure ⟨hc, hb, hbs⟩

theorem ifStmt : Ensures I (Parse.ifStmt block) (Stmt.Within P) := by
  refine (h.expectWord _).bind fun start hstart => (Ensures.fueled (h.branchesAt hblock)).bind
    fun branches hbranches => (h.eatWord _).bind fun _ => ?_
  have hend : ∀ otherwise : Option (List Stmt), OptionWithin P otherwise →
      Ensures I (do
        let _ ← Parse.expectWord .kwEnd
        let _ ← Parse.expectWord .kwIf
        Parse.eatName
        let _ ← Parse.expectSign .semicolon
        return .ifs branches otherwise (start.cover (← Parse.lastSpan))) (Stmt.Within P) :=
    fun _ hotherwise => (h.expectWord _).bind fun _ _ => (h.expectWord _).bind fun _ _ =>
      h.eatName.bind fun _ => (h.expectSign _).bind fun _ _ => h.lastSpan.bind fun _ hlast =>
        .pure ⟨hbranches, hotherwise, h.cover _ _ hstart hlast⟩
  exact .ite (hblock.bind fun b hb => hend (some b) hb) (hend none trivial)

theorem armsAt (n : Nat) (others : Option (List Stmt)) (hothers : OptionWithin P others) :
    Ensures I (Parse.armsAt block n others) fun r => ArmsWithin P r.1 ∧ OptionWithin P r.2 := by
  induction n generalizing others with
  | zero => exact .pure ⟨trivial, hothers⟩
  | succ n ih =>
    refine h.span.bind fun start hstart => (h.eatWord _).bind fun _ =>
      .ite ?_ (.pure ⟨trivial, hothers⟩)
    refine (h.eatWord _).bind fun _ => .ite ?_ ?_
    · exact (h.expectSign _).bind fun _ _ => hblock.bind fun b hb => ih (some b) hb
    · exact h.choices.bind fun cs hcs => (h.expectSign _).bind fun _ _ => hblock.bind fun b hb =>
        h.lastSpan.bind fun _ hlast => (ih others hothers).bind fun r hr =>
          .pure ⟨⟨hcs, hb, h.cover _ _ hstart hlast, hr.1⟩, hr.2⟩

theorem caseStmt : Ensures I (Parse.caseStmt block) (Stmt.Within P) := by
  refine (h.expectWord _).bind fun start hstart => h.expr.bind fun e he =>
    (h.expectWord _).bind fun _ _ =>
      (Ensures.fueled fun n => h.armsAt hblock n none trivial).bind fun r hr => ?_
  exact (h.expectWord _).bind fun _ _ => (h.expectWord _).bind fun _ _ => h.eatName.bind fun _ =>
    (h.expectSign _).bind fun _ _ => h.lastSpan.bind fun _ hlast =>
      .pure ⟨he, hr.1, hr.2, h.cover _ _ hstart hlast⟩

omit hblock in
theorem assignStmt : Ensures I Parse.assignStmt (Stmt.Within P) := by
  refine h.span.bind fun start hstart => h.target.bind fun t ht => Keeps.kind.bind fun k => ?_
  split
  · exact h.advance.bind fun _ => h.assignAfter ht hstart
  · exact h.unsupported _
  · exact h.expected _

omit hblock in
theorem nullStmt : Ensures I Parse.nullStmt (Stmt.Within P) :=
  (h.expectWord _).bind fun _ hstart => (h.expectSign _).bind fun _ _ =>
    h.lastSpan.bind fun _ hlast => .pure (h.cover _ _ hstart hlast)

omit hblock in
theorem skipLabel : Keeps I Parse.skipLabel :=
  Keeps.atLabel.bind fun _ => .ite (h.advance.bind fun _ => h.advance) Keeps.pure

theorem stmtOf : Ensures I (Parse.stmtOf block) (Stmt.Within P) := by
  refine h.skipLabel.bind fun _ => Keeps.kind.bind fun k => ?_
  split
  · exact h.ifStmt hblock
  · exact h.caseStmt hblock
  · exact h.nullStmt
  · exact h.assignStmt
  · exact h.unsupported _
  · exact h.unsupported _
  · exact h.expected _

end Nested

theorem nestedBlockAt (n : Nat) : Ensures I (Parse.nestedBlockAt n) (BlockWithin P) := by
  induction n with
  | zero => exact .pure trivial
  | succ n ih => exact .fueled (h.blockAt (h.stmtOf ih))

theorem block : Ensures I Parse.block (BlockWithin P) := .fueled h.nestedBlockAt

/-! ### Statements of an architecture -/

theorem sensitivity : Ensures I Parse.sensitivity (Sensitivity.Within P) := by
  have hclose : ∀ s : Sensitivity, s.Within P →
      Ensures I (do let _ ← Parse.expectSign .rightParen; return s) (Sensitivity.Within P) :=
    fun _ hs => (h.expectSign _).bind fun _ _ => .pure hs
  refine (h.eatSign _).bind fun _ => .ite ((h.eatWord _).bind fun _ => .ite ?_ ?_) (.pure nofun)
  · exact hclose .all trivial
  · exact (h.separated _ h.ident).bind fun is his => hclose (.list is) fun i hi =>
      (his.2 i hi).within

theorem beginProcess : Keeps I Parse.beginProcess := by
  refine Keeps.kind.bind fun k => ?_
  split
  · exact h.advance
  iterate 4 exact h.unsupported _
  · exact h.expected _

theorem association : Ensures I Parse.association (Association.Within P) := by
  refine Ensures.get.bind fun s hs => ?_
  have hwhole : ∀ (formal : Option Ident) (actual : Actual), (∀ i ∈ formal, i.Within P) →
      actual.Within P →
        Ensures I (do return ⟨formal, actual, s.span.cover (← Parse.lastSpan)⟩)
          (Association.Within P) :=
    fun _ _ hformal hactual => h.lastSpan.bind fun _ hlast =>
      .pure ⟨hformal, hactual, h.cover _ _ (h.here s hs) hlast⟩
  have hactual : ∀ formal : Option Ident, (∀ i ∈ formal, i.Within P) →
      Ensures I (do
        let actual ← if ← Parse.eatWord .kwOpen then pure Actual.leftOpen
          else pure (Actual.expr (← Parse.expr))
        return ⟨formal, actual, s.span.cover (← Parse.lastSpan)⟩) (Association.Within P) :=
    fun formal hformal => (h.eatWord _).bind fun _ => .ite (hwhole formal .leftOpen hformal trivial)
      (h.expr.bind fun e he => hwhole formal (.expr e) hformal he)
  refine .ite (h.ident.bind fun i hi => h.advance.bind fun _ => ?_) (hactual none nofun)
  exact hactual (some i) (by simp [hi.within])

theorem mapClause (word : Keyword) :
    Ensures I (Parse.mapClause word) fun as => ∀ a ∈ as, a.Within P := by
  refine (h.eatWord _).bind fun _ => .ite ?_ (.pure nofun)
  exact (h.expectWord _).bind fun _ _ => (h.expectSign _).bind fun _ _ =>
    (h.separated _ h.association).bind fun _ has => (h.expectSign _).bind fun _ _ => .pure has.2

section
variable {start : Span} (hstart : P start) (label : Option String)
include hstart

theorem process : Ensures I (Parse.process label start) (Process.Within P) :=
  (h.expectWord _).bind fun _ _ => h.sensitivity.bind fun _ hs => (h.eatWord _).bind fun _ =>
    h.beginProcess.bind fun _ => h.block.bind fun _ hb => (h.expectWord _).bind fun _ _ =>
      (h.expectWord _).bind fun _ _ => h.eatName.bind fun _ => (h.expectSign _).bind fun _ _ =>
        h.lastSpan.bind fun _ hlast => .pure ⟨hs, hb, h.cover _ _ hstart hlast⟩

theorem instanceAfter (label entity : String) (architecture : Option String) :
    Ensures I (Parse.instanceAfter label entity architecture start) (Concurrent.Within P) :=
  (h.mapClause _).bind fun _ hgenerics => (h.mapClause _).bind fun _ hports =>
    (h.expectSign _).bind fun _ _ => h.lastSpan.bind fun _ hlast =>
      .pure ⟨hgenerics, hports, h.cover _ _ hstart hlast⟩

theorem requireLabel : Keeps I (Parse.requireLabel label start) := by
  cases label with
  | none => exact h.fail _ hstart
  | some l => exact Keeps.pure

theorem entityInstance : Ensures I (Parse.entityInstance label start) (Concurrent.Within P) := by
  refine (h.requireLabel hstart label).bind fun l => (h.expectWord _).bind fun _ _ =>
    h.name.bind fun _ => (h.eatSign _).bind fun _ =>
      .ite (h.name.bind fun entity => ?_) (Keeps.pure.bind fun entity => ?_)
  all_goals
    refine (h.eatSign _).bind fun _ =>
      .ite (h.name.bind fun _ => (h.expectSign _).bind fun _ _ => ?_) ?_
  all_goals exact Keeps.pure.bind fun architecture => h.instanceAfter hstart l entity architecture

theorem componentInstance : Ensures I (Parse.componentInstance label start) (Concurrent.Within P) :=
  (h.requireLabel hstart label).bind fun l => (h.eatWord _).bind fun _ => h.name.bind fun entity =>
    h.instanceAfter hstart l entity none

omit hstart in
theorem selectedAt {target : Target} (htarget : target.Within P) (n : Nat)
    (others : Option (List Stmt)) (hothers : OptionWithin P others) :
    Ensures I (Parse.selectedAt target n others)
      fun r => ArmsWithin P r.1 ∧ OptionWithin P r.2 := by
  induction n generalizing others with
  | zero => exact .pure ⟨trivial, hothers⟩
  | succ n ih =>
    refine h.span.bind fun start hstart => h.delayedValue.bind fun v hv =>
      (h.expectWord _).bind fun _ _ => (h.eatWord _).bind fun _ => ?_
    have hassign : BlockWithin P [.assign target v.1 v.2] := ⟨⟨htarget, hv⟩, trivial⟩
    refine .ite ?_ ?_
    · exact (h.eatSign _).bind fun _ =>
        .ite (ih (some [.assign target v.1 v.2]) hassign) (.pure ⟨trivial, hassign⟩)
    · refine h.choices.bind fun cs hcs => h.lastSpan.bind fun _ hlast => (h.eatSign _).bind fun _ => ?_
      have hspan := h.cover _ _ hstart hlast
      exact .ite ((ih others hothers).bind fun r hr => .pure ⟨⟨hcs, hassign, hspan, hr.1⟩, hr.2⟩)
        (.pure ⟨⟨hcs, hassign, hspan, trivial⟩, hothers⟩)

theorem selectedAssign : Ensures I (Parse.selectedAssign label start) (Process.Within P) := by
  refine (h.expectWord _).bind fun _ _ => h.expr.bind fun e he => (h.expectWord _).bind fun _ _ =>
    h.target.bind fun t ht => (h.expectSign _).bind fun _ _ =>
      (Ensures.fueled fun n => h.selectedAt ht n none trivial).bind fun r hr => ?_
  refine (h.expectSign _).bind fun _ _ => h.lastSpan.bind fun _ hlast => .pure ?_
  have hspan := h.cover _ _ hstart hlast
  exact ⟨trivial, ⟨⟨he, hr.1, hr.2, hspan⟩, trivial⟩, hspan⟩

theorem concurrentAssign : Ensures I (Parse.concurrentAssign label start) (Process.Within P) :=
  h.target.bind fun _ ht => (h.expectSign _).bind fun _ _ => (h.assignAfter ht hstart).bind
    fun _ hs => h.lastSpan.bind fun _ hlast =>
      .pure ⟨trivial, ⟨hs, trivial⟩, h.cover _ _ hstart hlast⟩

theorem generate {body : Parse (List Concurrent)} (hbody : Ensures I body (ConcurrentsWithin P)) :
    Ensures I (Parse.generate body label start) (Concurrent.Within P) := by
  refine (h.requireLabel hstart label).bind fun l => (h.expectWord _).bind fun _ _ =>
    h.name.bind fun var => (h.expectWord _).bind fun _ _ => h.range.bind fun r hr =>
      (h.expectWord _).bind fun _ _ => Keeps.kind.bind fun k => ?_
  have hrest : ∀ {ds : List Decl}, (∀ d ∈ ds, d.Within P) → Ensures I (do
      let stmts ← body
      let _ ← Parse.expectWord .kwEnd
      let _ ← Parse.expectWord .kwGenerate
      Parse.eatName
      let _ ← Parse.expectSign .semicolon
      return .generate ⟨l, var, r, ds, stmts, start.cover (← Parse.lastSpan)⟩)
        (Concurrent.Within P) :=
    fun hds => hbody.bind fun _ hcs => (h.expectWord _).bind fun _ _ =>
      (h.expectWord _).bind fun _ _ => h.eatName.bind fun _ => (h.expectSign _).bind fun _ _ =>
        h.lastSpan.bind fun _ hlast => .pure ⟨hr, hds, hcs, h.cover _ _ hstart hlast⟩
  split
  case h_5 => exact (h.eatWord _).bind fun _ => hrest nofun
  all_goals exact h.decls.bind fun _ hds => (h.expectWord _).bind fun _ _ => hrest hds

end

theorem label? : Keeps I Parse.label? :=
  Keeps.atLabel.bind fun _ =>
    .ite (h.name.bind fun _ => h.advance.bind fun _ => Keeps.pure) Keeps.pure

omit h in
theorem headKind : Keeps I Parse.headKind :=
  Keeps.atLabel.bind fun _ => .ite (Keeps.kindAt 2) Keeps.kind

theorem skipConcurrent (head : TokenKind) : Keeps I (Parse.skipConcurrent head) := by
  unfold Parse.skipConcurrent
  split
  · exact h.skipPastEnd _
  · exact h.skipPastEnd _
  · exact h.skipSentence

theorem concurrentOf {body : Parse (List Concurrent)}
    (hbody : Ensures I body (ConcurrentsWithin P)) :
    Ensures I (Parse.concurrentOf body) (Concurrent.Within P) := by
  refine h.span.bind fun start hstart => h.label?.bind fun label => Keeps.get.bind fun s => ?_
  split
  · exact (h.process hstart label).bind fun _ hp => .pure hp
  · exact h.entityInstance hstart label
  · exact h.componentInstance hstart label
  · exact h.generate hstart label hbody
  · exact h.unsupported _
  · exact (h.selectedAssign hstart label).bind fun _ hp => .pure hp
  · exact .ite (h.componentInstance hstart label)
      ((h.concurrentAssign hstart label).bind fun _ hp => .pure hp)
  · exact h.expected _

theorem concurrentsAt {stmt : Parse Concurrent} (hstmt : Ensures I stmt (Concurrent.Within P))
    (n : Nat) : Ensures I (Parse.concurrentsAt stmt n) (ConcurrentsWithin P) := by
  induction n with
  | zero => exact .pure trivial
  | succ n ih =>
    refine Keeps.get.bind fun s => .ite (.pure trivial) ?_
    refine headKind.bind fun head => hstmt.attempt.bind fun c hc => ?_
    split
    · exact ih.bind fun cs hcs => .pure ⟨hc _ rfl, hcs⟩
    · exact (h.skipConcurrent head).bind fun _ => ih

theorem nestedConcurrentsAt (n : Nat) :
    Ensures I (Parse.nestedConcurrentsAt n) (ConcurrentsWithin P) := by
  induction n with
  | zero => exact .pure trivial
  | succ n ih => exact .fueled (h.concurrentsAt (h.concurrentOf ih))

theorem concurrents : Ensures I Parse.concurrents (ConcurrentsWithin P) :=
  .fueled h.nestedConcurrentsAt

/-! ### Units -/

theorem entity : Ensures I Parse.entity (Entity.Within P) := by
  refine (h.expectWord _).bind fun start hstart => h.name.bind fun n =>
    (h.expectWord _).bind fun _ _ => (Keeps.atKind _).bind fun _ => ?_
  have hend : ∀ (gs : List Generic) (ps : List Port), (∀ g ∈ gs, g.Within P) →
      (∀ p ∈ ps, p.Within P) → Ensures I (do
        let _ ← Parse.expectWord .kwEnd
        Parse.finishEnd .kwEntity
        return ⟨n, gs, ps, start.cover (← Parse.lastSpan)⟩) (Entity.Within P) :=
    fun _ _ hgs hps => (h.expectWord _).bind fun _ _ => (h.finishEnd _).bind fun _ =>
      h.lastSpan.bind fun _ hlast => .pure ⟨hgs, hps, h.cover _ _ hstart hlast⟩
  have hbegin : ∀ (gs : List Generic) (ps : List Port), (∀ g ∈ gs, g.Within P) →
      (∀ p ∈ ps, p.Within P) → Ensures I (do
        if ← Parse.atWord .kwBegin then
          Parse.unsupported "entity statement part"
        let _ ← Parse.expectWord .kwEnd
        Parse.finishEnd .kwEntity
        return ⟨n, gs, ps, start.cover (← Parse.lastSpan)⟩) (Entity.Within P) :=
    fun gs ps hgs hps => (Keeps.atKind _).bind fun _ =>
      .ite (Keeps.bind (h.unsupported _) fun _ => hend gs ps hgs hps) (hend gs ps hgs hps)
  have hports : ∀ gs : List Generic, (∀ g ∈ gs, g.Within P) → Ensures I (do
        let ps ← if ← Parse.atWord .kwPort then Parse.ports else pure []
        if ← Parse.atWord .kwBegin then
          Parse.unsupported "entity statement part"
        let _ ← Parse.expectWord .kwEnd
        Parse.finishEnd .kwEntity
        return ⟨n, gs, ps, start.cover (← Parse.lastSpan)⟩) (Entity.Within P) :=
    fun gs hgs => (Keeps.atKind _).bind fun _ =>
      .ite (h.ports.bind fun ps hps => hbegin gs ps hgs hps) (hbegin gs [] hgs nofun)
  exact .ite (h.generics.bind fun gs hgs => hports gs hgs) (hports [] nofun)

theorem architecture : Ensures I Parse.architecture (Architecture.Within P) :=
  (h.expectWord _).bind fun _ hstart => h.name.bind fun _ => (h.expectWord _).bind fun _ _ =>
    h.name.bind fun _ => (h.expectWord _).bind fun _ _ => h.decls.bind fun _ hds =>
      (h.expectWord _).bind fun _ _ => h.concurrents.bind fun _ hcs =>
        (h.expectWord _).bind fun _ _ => (h.finishEnd _).bind fun _ =>
          h.lastSpan.bind fun _ hlast => .pure ⟨hds, hcs, h.cover _ _ hstart hlast⟩

theorem unit : Ensures I Parse.unit (Library.Within P) := by
  have hempty : Library.Within P {} := ⟨nofun, nofun⟩
  have hskip : Ensures I (do Parse.skipToUnit; return {}) (Library.Within P) :=
    h.skipToUnit.bind fun _ => .pure hempty
  refine Keeps.kind.bind fun k => ?_
  split
  iterate 2 exact h.skipSentence.bind fun _ => .pure hempty
  · refine h.entity.attempt.bind fun e he => ?_
    split
    · exact .pure ⟨List.forall_mem_singleton.2 (he _ rfl), nofun⟩
    · exact hskip
  · refine h.architecture.attempt.bind fun a ha => ?_
    split
    · exact .pure ⟨nofun, List.forall_mem_singleton.2 (ha _ rfl)⟩
    · exact hskip
  · exact (Keeps.attempt (h.unsupported _)).bind fun _ => hskip
  · exact (Keeps.attempt (h.expected _)).bind fun _ => hskip

theorem unitsAt (n : Nat) : Ensures I (Parse.unitsAt n) (Library.Within P) := by
  induction n with
  | zero => exact .pure ⟨nofun, nofun⟩
  | succ n ih =>
    refine Keeps.kind.bind fun _ => .ite (.pure ⟨nofun, nofun⟩) ?_
    exact h.unit.bind fun l hl => ih.bind fun more hmore => .pure (hl.append hmore)

theorem units : Ensures I Parse.units (Library.Within P) := .fueled h.unitsAt

end Reads

/-! ### Tokens at spans with a property -/

/-- There is a token, and all tokens and faults have spans with `P`. -/
structure Stands (P : Span → Prop) (s : ParseState) : Prop where
  exists_token : s.token?.isSome
  passed : ∀ t ∈ s.passed, P t.span
  rest : ∀ t ∈ s.rest, P t.span
  reported : ∀ d ∈ s.reported, P d.span

namespace Stands
variable {P : Span → Prop} {s : ParseState} (h : Stands P s)
include h

theorem advance : Stands P s.advance := by
  unfold ParseState.advance
  split
  · exact h
  · rename_i t ts hrest
    obtain ⟨ht, hts⟩ := List.forall_mem_cons.1 (hrest ▸ h.rest)
    split
    · exact h
    · refine ⟨?_, List.forall_mem_cons.2 ⟨ht, h.passed⟩, hts, h.reported⟩
      cases ts <;> rfl

theorem span : P s.span := by
  obtain ⟨t, ht⟩ := Option.isSome_iff_exists.1 h.exists_token
  rw [ParseState.span, ht]
  rcases hrest : s.rest with _ | ⟨u, us⟩
  · rw [ParseState.token?, hrest] at ht
    exact h.passed t (List.mem_of_head? ht)
  · rw [ParseState.token?, hrest] at ht
    obtain rfl : u = t := Option.some.inj ht
    exact h.rest u (hrest ▸ List.mem_cons_self)

theorem lastSpan : P s.lastSpan := by
  rw [ParseState.lastSpan]
  cases hpassed : s.passed with
  | nil => exact h.span
  | cons t ts => exact h.passed t (hpassed ▸ List.mem_cons_self)

end Stands

theorem reads_stands {P : Span → Prop} (hcover : ∀ a b, P a → P b → P (a.cover b)) :
    Reads (Stands P) P where
  pass _ h := h.advance
  report _ _ _ h hx := ⟨h.exists_token, h.passed, h.rest, List.forall_mem_cons.2 ⟨hx, h.reported⟩⟩
  here _ h := h.span
  last _ h := h.lastSpan
  cover := hcover

end Parse

/-- If all tokens have spans with `P`, so do the units they form and the faults found in them. -/
theorem parseTokens_within {P : Span → Prop} (hcover : ∀ a b, P a → P b → P (a.cover b))
    {tokens : List Token} (hne : tokens ≠ []) (htokens : ∀ t ∈ tokens, P t.span) :
    (parseTokens tokens).1.Within P ∧ ∀ d ∈ (parseTokens tokens).2, P d.span := by
  have hstart : Parse.Stands P (.init tokens) := by
    obtain ⟨t, ts, rfl⟩ := List.exists_cons_of_ne_nil hne
    exact ⟨rfl, nofun, htokens, nofun⟩
  obtain ⟨hend, hunits⟩ := (Parse.reads_stands hcover).units _ hstart
  refine ⟨?_, fun d hd => hend.reported d (List.mem_reverse.1 hd)⟩
  show ((Parse.units (.init tokens)).1.getD {}).Within P
  cases h : (Parse.units (.init tokens)).1 with
  | none => exact ⟨nofun, nofun⟩
  | some l => exact hunits l h

end HdlLint.Syntax
