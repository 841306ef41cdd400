import HdlLint.Proofs.Recovery

/-!
# Lists are loops that end

The lists of declarations, statements, concurrent statements and units do rounds until a token that
ends them (`Loop`). Since each round passes a token, there is always fuel left for one more, also where
the items of a list hold lists of their own (`Loop.of_nested`). So a list gives what its rounds give up
to its end, and reading a whole text ends at the end of the text (`units_loop`).
-/

namespace HdlLint.Syntax.Parse
variable {α β : Type} {s : ParseState}

/-- Rounds until `ends` holds, whose results are put together by `join`. -/
def rounds (ends : ParseState → Bool) (round : Parse α) (join : α → β → β) (empty : β) :
    Nat → Parse β
  | 0 => return empty
  | n + 1 => do
    if ends (← get) then
      return empty
    else
      let a ← round
      let more ← rounds ends round join empty n
      return join a more

/-- The rule `list` is the loop that does `round` until `ends` holds, and each round passes a token. -/
structure Loop (ends : ParseState → Bool) (round : Parse α) (join : α → β → β) (empty : β)
    (list : Parse β) : Prop where
  eq : list = do
    if ends (← get) then
      return empty
    else
      let a ← round
      let more ← list
      return join a more
  passes : ∀ s, ends s = false → Passes round s

section
variable {ends : ParseState → Bool} {round round' : Parse α} {join : α → β → β} {empty : β}

theorem rounds_succ_of_ends (h : ends s) (n : Nat) :
    rounds ends round join empty (n + 1) s = (some empty, s) := by
  show (if ends s then _ else _ : Parse β) s = _
  rw [if_pos h]
  rfl

theorem rounds_succ_of_not_ends (h : ends s = false) (n : Nat) :
    rounds ends round join empty (n + 1) s = (do
      let a ← round
      let more ← rounds ends round join empty n
      return join a more : Parse β) s := by
  show (if ends s then _ else _ : Parse β) s = _
  rw [if_neg (by simp [h])]

/-- The fuel of a list does not matter if there is more of it than tokens. -/
theorem rounds_congr {m n n' : Nat} (hround : ∀ t : ParseState, t.rest.length < m → round t = round' t)
    (hpasses : ∀ t, ends t = false → Passes round t) (hs : s.rest.length < m) (hn : s.rest.length < n)
    (hn' : s.rest.length < n') :
    rounds ends round join empty n s = rounds ends round' join empty n' s := by
  induction n generalizing s n' with
  | zero => omega
  | succ n ih =>
    obtain ⟨n', rfl⟩ : ∃ k, n' = k + 1 := ⟨n' - 1, by omega⟩
    cases hends : ends s with
    | true => rw [rounds_succ_of_ends hends, rounds_succ_of_ends hends]
    | false =>
      rw [rounds_succ_of_not_ends hends, rounds_succ_of_not_ends hends, ← run_bind_of_eq (hround s hs)]
      refine run_bind_congr fun a t ht => run_bind_of_eq ?_
      have hlt := (hpasses s hends).lt ht
      exact ih (by omega) (by omega) (by omega)

theorem Loop.of_rounds {list : Parse β} (hlist : list = fueled (rounds ends round join empty))
    (hpasses : ∀ s, ends s = false → Passes round s) : Loop ends round join empty list := by
  refine ⟨funext fun s => ?_, hpasses⟩
  have hrun : ∀ {t : ParseState} {n : Nat}, t.rest.length < n →
      rounds ends round join empty n t = list t := by
    intro t n hn
    rw [hlist]
    exact rounds_congr (m := n) (fun _ _ => rfl) hpasses hn hn (Nat.lt_succ_self _)
  have hs : list s = rounds ends round join empty (s.rest.length + 1) s :=
    (hrun (Nat.lt_succ_self _)).symm
  show list s = (if ends s then _ else _ : Parse β) s
  cases hends : ends s with
  | true =>
    rw [hs, rounds_succ_of_ends hends]
    rfl
  | false =>
    rw [hs, rounds_succ_of_not_ends hends]
    exact run_bind_congr fun a t ht => run_bind_of_eq (hrun ((hpasses s hends).lt ht))

/-- A list whose rounds give something gives something, and stands then where it ends. -/
theorem Loop.total {list : Parse β} (h : Loop ends round join empty list) (hround : Total round)
    (s : ParseState) : ∃ b s', list s = (some b, s') ∧ ends s' := by
  induction hn : s.rest.length using Nat.strongRecOn generalizing s with
  | _ n ih =>
    have hrun : list s = (if ends s then pure empty else do
      let a ← round
      let more ← list
      return join a more : Parse β) s := congrFun h.eq s
    cases hends : ends s with
    | true =>
      rw [hends] at hrun
      exact ⟨empty, s, hrun, hends⟩
    | false =>
      rw [hends] at hrun
      obtain ⟨a, t, ht⟩ := hround s
      obtain ⟨b, s', hb, hend⟩ := ih _ (hn ▸ (h.passes s hends).lt ht) t rfl
      refine ⟨join a b, s', ?_, hend⟩
      rw [hrun, if_neg (by simp), run_bind_some ht, run_bind_some hb]
      rfl

/-- A list whose rounds call for the list itself, but only after a token: with more fuel than tokens
for the depth as well it does not matter how much there is. -/
theorem nested_agrees {nested : Nat → Parse β} {round : Parse β → Parse α}
    (hnested : ∀ n, nested (n + 1) = fueled (rounds ends (round (nested n)) join empty))
    (hsteady : ∀ n, Steady (nested n))
    (hround : ∀ m b b', Agrees m b b' → ∀ t : ParseState, t.rest.length < m + 1 → round b t = round b' t)
    (hpasses : ∀ b, Steady b → ∀ s, ends s = false → Passes (round b) s) (n n' : Nat) :
    Agrees (min n n') (nested n) (nested n') := by
  induction n generalizing n' with
  | zero => intro s hs; omega
  | succ n ih =>
    intro s hs
    obtain ⟨n', rfl⟩ : ∃ k, n' = k + 1 := ⟨n' - 1, by omega⟩
    have hinner : Agrees s.rest.length (nested n) (nested n') := fun t ht => ih n' t (by omega)
    refine ⟨?_, (Agrees.of_steady (hsteady (n + 1)) s hs).2⟩
    have hlt := Nat.lt_succ_self s.rest.length
    rw [hnested, hnested]
    exact rounds_congr (hround _ _ _ hinner) (hpasses _ (hsteady n)) hlt hlt hlt

theorem Loop.of_nested {nested : Nat → Parse β} {round : Parse β → Parse α}
    (hnested : ∀ n, nested (n + 1) = fueled (rounds ends (round (nested n)) join empty))
    (hsteady : ∀ n, Steady (nested n))
    (hround : ∀ m b b', Agrees m b b' → ∀ t : ParseState, t.rest.length < m + 1 → round b t = round b' t)
    (hpasses : ∀ b, Steady b → ∀ s, ends s = false → Passes (round b) s) :
    Loop ends (round (fueled nested)) join empty (fueled nested) := by
  have hlist : Steady (fueled nested) := fun r => .fueled fun n => hsteady n r
  refine .of_rounds (funext fun s => ?_) (hpasses _ hlist)
  have hinner : Agrees s.rest.length (nested s.rest.length) (fueled nested) := fun t ht =>
    nested_agrees hnested hsteady hround hpasses _ (t.rest.length + 1) t (by omega)
  have hlt := Nat.lt_succ_self s.rest.length
  calc fueled nested s
      = rounds ends (round (nested s.rest.length)) join empty (s.rest.length + 1) s :=
        congrFun (hnested s.rest.length) s
    _ = rounds ends (round (fueled nested)) join empty (s.rest.length + 1) s :=
        rounds_congr (hround _ _ _ hinner) (hpasses _ (hsteady _)) hlt hlt hlt

end

/-! ### Declarations -/

def endsDecls (s : ParseState) : Bool := s.kind == .keyword .kwBegin || s.kind == .eof

theorem ne_eof_of_not_endsDecls (h : endsDecls s = false) : s.kind ≠ .eof := by
  intro heof
  simp [endsDecls, heof] at h

theorem skipSentence_steady : Steady skipSentence := fun r => (reads_suffix r).skipSentence

theorem turn_bind (item : Parse α) (skip : Parse Unit) (k : Option α → Parse β) :
    turn item skip >>= k = (do
      match ← attempt item with
      | some a => k (some a)
      | none =>
        skip
        k none) := by
  rw [turn, bind_assoc]
  congr
  funext o
  cases o with
  | some a => rfl
  | none => simp only [bind_assoc, pure_bind]

theorem declsAt_eq (n : Nat) :
    declsAt n = rounds endsDecls (turn decl skipSentence) (fun ds more => ds.getD [] ++ more) [] n := by
  induction n with
  | zero => rfl
  | succ n ih =>
    rw [declsAt, rounds, ih]
    congr
    funext s
    rw [turn_bind]
    congr
    funext o
    cases o with
    | some ds => rfl
    | none => simp only [Option.getD_none, List.nil_append, bind_pure]

theorem decls_loop :
    Loop endsDecls (turn decl skipSentence) (fun ds more => ds.getD [] ++ more) [] decls := by
  refine .of_rounds (congrArg fueled (funext declsAt_eq)) fun s hs => ?_
  exact turn_passes decl_shortens (fun r => (reads_suffix r).decl.keeps) skipSentence_steady
    (fun _ => skipSentence_passes) (ne_eof_of_not_endsDecls hs)

/-! ### Statements of a process -/

theorem blockAt_eq (stmt : Parse Stmt) (n : Nat) :
    blockAt stmt n = rounds (fun s => endsBlock s.kind) (turn stmt skipSentence)
      (fun s more => s.toList ++ more) [] n := by
  induction n with
  | zero => rfl
  | succ n ih =>
    rw [blockAt, rounds, ih, kind, bind_assoc]
    congr
    funext s
    rw [pure_bind, turn_bind]
    congr
    funext o
    cases o with
    | some a => rfl
    | none => simp only [Option.toList_none, List.nil_append, bind_pure]

theorem stmt_passes (b : Parse (List Stmt)) (hb : Steady b) (s : ParseState)
    (hs : endsBlock s.kind = false) : Passes (turn (stmtOf b) skipSentence) s := by
  have hshortens : Shortens (stmtOf b) :=
    AgreesAt.shortens fun s => stmtOf_agrees (.of_steady hb) s (Nat.lt_succ_self _)
  have hsteady : Steady (stmtOf b) := fun r =>
    ((reads_suffix r).stmtOf ((hb r).mono fun b _ => blockWithin_true b)).keeps
  have hne : s.kind ≠ .eof := by
    intro heof
    rw [heof] at hs
    cases hs
  exact turn_passes hshortens hsteady skipSentence_steady (fun _ => skipSentence_passes) hne

theorem block_loop : Loop (fun s => endsBlock s.kind) (turn (stmtOf block) skipSentence)
    (fun s more => s.toList ++ more) [] block := by
  have hround : ∀ m b b', Agrees m b b' → ∀ t : ParseState, t.rest.length < m + 1 →
      turn (stmtOf b) skipSentence t = turn (stmtOf b') skipSentence t :=
    fun m b b' hb t ht => turn_congr _ (stmtOf_agrees hb t ht).1
  exact .of_nested (fun n => congrArg fueled (funext (blockAt_eq _)))
    (fun n r => ((reads_suffix r).nestedBlockAt n).keeps) hround stmt_passes

/-! ### Statements of an architecture -/

def endsConcurrents (s : ParseState) : Bool := s.kind == .keyword .kwEnd || s.kind == .eof

/-- Reads a statement or, if it is faulty, skips by its first word. -/
def concurrentTurn (stmt : Parse Concurrent) : Parse (Option Concurrent) := do
  let head ← headKind
  turn stmt (skipConcurrent head)

theorem concurrentsAt_eq (stmt : Parse Concurrent) (n : Nat) :
    concurrentsAt stmt n = rounds endsConcurrents (concurrentTurn stmt)
      (fun c more => c.toList ++ more) [] n := by
  induction n with
  | zero => rfl
  | succ n ih =>
    rw [concurrentsAt, rounds, ih]
    congr
    funext s
    rw [concurrentTurn, bind_assoc]
    congr
    funext head
    rw [turn_bind]
    congr
    funext o
    cases o with
    | some c => rfl
    | none => simp only [Option.toList_none, List.nil_append, bind_pure]

theorem headKind_run (s : ParseState) : ∃ head, headKind s = (some head, s) := by
  show ∃ head, (if s.kind == .identifier && s.kindAt 1 == .symbol .colon then kindAt 2 else kind :
    Parse TokenKind) s = (some head, s)
  split
  · exact ⟨_, rfl⟩
  · exact ⟨_, rfl⟩

theorem concurrent_passes (b : Parse (List Concurrent)) (hb : Steady b) (s : ParseState)
    (hs : endsConcurrents s = false) : Passes (concurrentTurn (concurrentOf b)) s := by
  have hshortens : Shortens (concurrentOf b) :=
    AgreesAt.shortens fun s => concurrentOf_agrees (.of_steady hb) s (Nat.lt_succ_self _)
  have hsteady : Steady (concurrentOf b) := fun r =>
    ((reads_suffix r).concurrentOf ((hb r).mono fun b _ => concurrentsWithin_true b)).keeps
  have hne : s.kind ≠ .eof := by
    intro heof
    simp [endsConcurrents, heof] at hs
  obtain ⟨head, hhead⟩ := headKind_run s
  exact .of_run hhead (turn_passes hshortens hsteady (fun r => (reads_suffix r).skipConcurrent head)
    (fun _ => skipConcurrent_passes head) hne)

theorem concurrents_loop : Loop endsConcurrents (concurrentTurn (concurrentOf concurrents))
    (fun c more => c.toList ++ more) [] concurrents := by
  have hround : ∀ m b b', Agrees m b b' → ∀ t : ParseState, t.rest.length < m + 1 →
      concurrentTurn (concurrentOf b) t = concurrentTurn (concurrentOf b') t := by
    intro m b b' hb t ht
    obtain ⟨head, hhead⟩ := headKind_run t
    rw [concurrentTurn, concurrentTurn, run_bind_some hhead, run_bind_some hhead]
    exact turn_congr _ (concurrentOf_agrees hb t ht).1
  exact .of_nested (fun n => congrArg fueled (funext (concurrentsAt_eq _)))
    (fun n r => ((reads_suffix r).nestedConcurrentsAt n).keeps) hround concurrent_passes

/-! ### Units -/

theorem unitsAt_eq (n : Nat) :
    unitsAt n = rounds (fun s => s.kind == .eof) unit Library.append {} n := by
  induction n with
  | zero => rfl
  | succ n ih =>
    rw [unitsAt, rounds, ih, kind, bind_assoc]
    congr

theorem unit_passes (hs : s.kind ≠ .eof) : Passes unit s := by
  have hempty : ∀ _ : Unit, Steady (pure {} : Parse Library) := fun _ _ => Keeps.pure
  have hsteady : Steady (do skipToUnit; return {} : Parse Library) :=
    fun r => (reads_suffix r).skipToUnit.bind fun _ => Keeps.pure
  have hskip : ∀ t : ParseState, t.kind ≠ .eof →
      Passes (do skipToUnit; return {} : Parse Library) t :=
    fun t ht => (skipToUnit_passes ht).bind hempty
  refine Passes.get ?_
  split
  · exact (skipSentence_passes hs).bind hempty
  · exact (skipSentence_passes hs).bind hempty
  · refine attempt_passes entity_shortens (fun r => (reads_suffix r).entity.keeps) (fun o => ?_) hskip hs
    cases o with
    | some e => exact fun _ => Keeps.pure
    | none => exact hsteady
  · refine attempt_passes architecture_shortens (fun r => (reads_suffix r).architecture.keeps)
      (fun o => ?_) hskip hs
    cases o with
    | some a => exact fun _ => Keeps.pure
    | none => exact hsteady
  · exact hskip (s.report _) hs
  · exact hskip (s.report _) hs

theorem unit_total : Total unit := by
  have hskip : Total (do skipToUnit; return {} : Parse Library) :=
    skipToUnit_total.bind fun _ => .pure _
  have hsentence : Total (do skipSentence; return {} : Parse Library) :=
    skipSentence_total.bind fun _ => .pure _
  have hkind : Total kind := Total.get.bind fun _ => .pure _
  refine hkind.bind fun k => ?_
  split
  · exact hsentence
  · exact hsentence
  · refine (Total.attempt entity).bind fun o => ?_
    cases o with
    | some e => exact .pure _
    | none => exact hskip
  · refine (Total.attempt architecture).bind fun o => ?_
    cases o with
    | some a => exact .pure _
    | none => exact hskip
  · exact (Total.attempt _).bind fun _ => hskip
  · exact (Total.attempt _).bind fun _ => hskip

theorem units_loop : Loop (fun s => s.kind == .eof) unit Library.append {} units :=
  .of_rounds (congrArg fueled (funext unitsAt_eq)) fun _ hs => unit_passes (beq_eq_false_iff_ne.1 hs)

end HdlLint.Syntax.Parse
