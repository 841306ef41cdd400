import HdlLint.Rule.Override
import HdlLint.Proofs.Relabelling

/-!
# Levels on the command line win

A text names a rule by its id or its name, and no text names two rules (`Rule.ofText?_eq_some_iff`). Putting a
rule on a list takes it off the others and leaves all other rules where they are (`calls_put`). So after a
whole list of texts the rules that it names stand on that list only (`calls_putAll`), and of the three
lists of the command line the last one that names a rule decides (`override_exact`).
-/

namespace HdlLint

namespace Rule

/-- The text is the id of the rule in letters of any case, or its name, with blanks around it. -/
def CalledBy (r : Rule) (text : String) : Prop :=
  Ascii.lower r.id = Ascii.lower (Blank.trim text) ∨ r.name = Blank.trim text

instance (r : Rule) (text : String) : Decidable (r.CalledBy text) :=
  inferInstanceAs (Decidable (Ascii.lower r.id = Ascii.lower (Blank.trim text) ∨ r.name = Blank.trim text))

theorem lower_id_ne_lower_name (r s : Rule) : Ascii.lower r.id ≠ Ascii.lower s.name := by
  cases r <;> cases s <;> decide

theorem lower_id_inj {r s : Rule} (h : Ascii.lower r.id = Ascii.lower s.id) : r = s := by
  revert h
  cases r <;> cases s <;> decide

theorem name_inj {r s : Rule} (h : r.name = s.name) : r = s := by
  revert h
  cases r <;> cases s <;> decide

theorem CalledBy.unique {r s : Rule} {text : String} (hr : r.CalledBy text) (hs : s.CalledBy text) : r = s := by
  rcases hr with hr | hr <;> rcases hs with hs | hs
  · exact lower_id_inj (hr.trans hs.symm)
  · exact absurd (hr.trans (congrArg Ascii.lower hs.symm)) (lower_id_ne_lower_name r s)
  · exact absurd (hs.trans (congrArg Ascii.lower hr.symm)) (lower_id_ne_lower_name s r)
  · exact name_inj (hr.trans hs.symm)

theorem mem_all (r : Rule) : r ∈ all := by
  cases r <;> decide

theorem ofText?_eq_some_iff {r : Rule} {text : String} : ofText? text = some r ↔ r.CalledBy text := by
  have hcalled : ∀ s : Rule, (Ascii.sameLetters s.id (Blank.trim text) || s.name == Blank.trim text) = true ↔
      s.CalledBy text := by
    intro s
    rw [Bool.or_eq_true, Ascii.sameLetters, beq_iff_eq, beq_iff_eq, CalledBy]
  have hfind : ofText? text =
      all.find? fun s => Ascii.sameLetters s.id (Blank.trim text) || s.name == Blank.trim text := rfl
  rw [hfind]
  constructor
  · intro h
    have hr := List.find?_some h
    exact (hcalled r).1 hr
  · intro h
    cases hs : all.find? fun s => Ascii.sameLetters s.id (Blank.trim text) || s.name == Blank.trim text with
    | none =>
      have hnone := List.find?_eq_none.1 hs r (mem_all r)
      exact absurd ((hcalled r).2 h) hnone
    | some s =>
      have hcall := List.find?_some hs
      rw [((hcalled s).1 hcall).unique h]

theorem ofText?_eq_none_iff {text : String} : ofText? text = none ↔ ∀ r : Rule, ¬r.CalledBy text := by
  simp [Option.eq_none_iff_forall_ne_some, ofText?_eq_some_iff]

theorem ofText?_id (r : Rule) : ofText? r.id = some r := by
  cases r <;> decide

end Rule

namespace RuleLevels
variable {l l' settings flags merged : RuleLevels} {level k : RuleLevel} {r s : Rule} {texts : List String}

def list (l : RuleLevels) : RuleLevel → List String
  | .deny => l.deny
  | .allow => l.allow
  | .warn => l.warn

/-- A text of the list at this level names the rule. -/
def Calls (l : RuleLevels) (level : RuleLevel) (r : Rule) : Prop := ∃ text ∈ l.list level, r.CalledBy text

instance (l : RuleLevels) (level : RuleLevel) (r : Rule) : Decidable (l.Calls level r) :=
  inferInstanceAs (Decidable (∃ text ∈ l.list level, r.CalledBy text))

theorem calls_iff_lists : l.Calls level r ↔ lists (l.list level) r = true := by
  simp only [lists_iff, Names, Calls, Rule.ofText?_eq_some_iff]

/-! ### One text -/

theorem list_put : (l.put level r).list k =
    without (l.list k) r ++ if k = level then [r.id] else [] := by
  cases level <;> cases k <;> simp [put, clear, list]

/-- The rule stands on the list it is put on and on no other, and all other rules stand where they stood. -/
theorem calls_put : (l.put level r).Calls k s ↔ if s = r then k = level else l.Calls k s := by
  have hmem : ∀ text, text ∈ (l.put level r).list k ↔
      (text ∈ l.list k ∧ ¬r.CalledBy text) ∨ (k = level ∧ text = r.id) := by
    intro text
    rw [list_put, List.mem_append, without, List.mem_filter, bne_iff_ne, ne_eq, Rule.ofText?_eq_some_iff]
    split_ifs with hk <;> simp [hk]
  have hid : r.CalledBy r.id := Rule.ofText?_eq_some_iff.1 (Rule.ofText?_id r)
  simp only [Calls, hmem]
  split_ifs with hs
  · subst hs
    constructor
    · rintro ⟨text, ⟨-, hnot⟩ | ⟨hk, -⟩, hcalled⟩
      · exact absurd hcalled hnot
      · exact hk
    · intro hk
      exact ⟨s.id, .inr ⟨hk, rfl⟩, hid⟩
  · constructor
    · rintro ⟨text, ⟨hmem, -⟩ | ⟨-, rfl⟩, hcalled⟩
      · exact ⟨text, hmem, hcalled⟩
      · exact absurd (hcalled.unique hid) hs
    · rintro ⟨text, hmem, hcalled⟩
      exact ⟨text, .inl ⟨hmem, fun hr => hs (hcalled.unique hr)⟩, hcalled⟩

/-! ### One list -/

theorem putAll_cons (level : RuleLevel) (text : String) (texts : List String) (l : RuleLevels) :
    putAll level (text :: texts) l = (Rule.ofText? text).elim (.error ⟨level, text⟩)
      fun r => putAll level texts (l.put level r) := by
  rw [putAll]
  cases Rule.ofText? text with
  | none => rfl
  | some r => rfl

theorem putAll_cons_ok {text : String} (h : putAll level (text :: texts) l = .ok l') :
    ∃ r : Rule, r.CalledBy text ∧ putAll level texts (l.put level r) = .ok l' := by
  rw [putAll_cons] at h
  cases hr : Rule.ofText? text with
  | none =>
    rw [hr] at h
    cases h
  | some r =>
    rw [hr] at h
    exact ⟨r, Rule.ofText?_eq_some_iff.1 hr, h⟩

/-- The rules that the texts name stand on the list of the texts and on no other, and all other rules stand
where they stood. -/
theorem calls_putAll (h : putAll level texts l = .ok l') :
    l'.Calls k s ↔ if ∃ text ∈ texts, s.CalledBy text then k = level else l.Calls k s := by
  induction texts generalizing l with
  | nil =>
    cases h
    simp
  | cons t ts ih =>
    obtain ⟨r, hr, hts⟩ := putAll_cons_ok h
    have hcalled : s.CalledBy t ↔ s = r := ⟨fun hs => hs.unique hr, fun hs => hs ▸ hr⟩
    rw [ih hts, calls_put]
    by_cases hlater : ∃ text ∈ ts, s.CalledBy text
    · simp [hlater]
    · by_cases hs : s = r
      · subst hs
        simp [hr]
      · simp [hcalled, hlater, hs]

/-- It fails at a text that names no rule. -/
theorem putAll_eq_error {e : UnknownRule} (h : putAll level texts l = .error e) :
    e.level = level ∧ e.text ∈ texts ∧ ∀ r : Rule, ¬r.CalledBy e.text := by
  induction texts generalizing l with
  | nil => cases h
  | cons t ts ih =>
    rw [putAll_cons] at h
    cases ht : Rule.ofText? t with
    | none =>
      rw [ht] at h
      cases h
      exact ⟨rfl, List.mem_cons_self, Rule.ofText?_eq_none_iff.1 ht⟩
    | some r =>
      rw [ht] at h
      obtain ⟨hlevel, hmem, hnone⟩ := ih h
      exact ⟨hlevel, List.mem_cons_of_mem _ hmem, hnone⟩

theorem putAll_eq_ok (h : putAll level texts l = .ok l') : ∀ text ∈ texts, ∃ r : Rule, r.CalledBy text := by
  induction texts generalizing l with
  | nil => nofun
  | cons t ts ih =>
    obtain ⟨r, hr, hts⟩ := putAll_cons_ok h
    exact List.forall_mem_cons.2 ⟨⟨r, hr⟩, ih hts⟩

/-! ### The command line -/

/-- The lists are gone through one after the other, up to the first one with a text that names no rule. -/
theorem override_cases (settings flags : RuleLevels) :
    (∃ level l e, putAll level (flags.list level) l = .error e ∧ settings.override flags = .error e) ∨
    ∃ denied allowed merged, putAll .deny flags.deny settings = .ok denied ∧
      putAll .allow flags.allow denied = .ok allowed ∧ putAll .warn flags.warn allowed = .ok merged ∧
      settings.override flags = .ok merged := by
  have hrun : settings.override flags = putAll .deny flags.deny settings >>= fun denied =>
      putAll .allow flags.allow denied >>= fun allowed => putAll .warn flags.warn allowed := rfl
  cases hdeny : putAll .deny flags.deny settings with
  | error e =>
    rw [hdeny] at hrun
    exact .inl ⟨.deny, settings, e, hdeny, hrun⟩
  | ok denied =>
    replace hrun : settings.override flags = putAll .allow flags.allow denied >>= fun allowed =>
        putAll .warn flags.warn allowed := by
      rw [hrun, hdeny]
      rfl
    cases hallow : putAll .allow flags.allow denied with
    | error e =>
      rw [hallow] at hrun
      exact .inl ⟨.allow, denied, e, hallow, hrun⟩
    | ok allowed =>
      replace hrun : settings.override flags = putAll .warn flags.warn allowed := by
        rw [hrun, hallow]
        rfl
      cases hwarn : putAll .warn flags.warn allowed with
      | error e => exact .inl ⟨.warn, allowed, e, hwarn, hrun.trans hwarn⟩
      | ok merged => exact .inr ⟨denied, allowed, merged, rfl, hallow, hwarn, hrun.trans hwarn⟩

theorem severity?_eq (l : RuleLevels) (r : Rule) : l.severity? r =
    if l.Calls .allow r then none else if l.Calls .deny r then some .error
    else if l.Calls .warn r then some .warning else some r.defaultSeverity := by
  simp only [severity?, calls_iff_lists, list]

/-- A rule stands where the last list of the command line that names it puts it. -/
theorem calls_override (h : settings.override flags = .ok merged) : merged.Calls k r ↔
    if flags.Calls .warn r then k = .warn else if flags.Calls .allow r then k = .allow
    else if flags.Calls .deny r then k = .deny else settings.Calls k r := by
  rcases override_cases settings flags with ⟨-, -, e, -, hrun⟩ | ⟨denied, allowed, m, hdeny, hallow, hwarn, hrun⟩
  · rw [hrun] at h
    cases h
  · obtain rfl : m = merged := Except.ok.inj (hrun.symm.trans h)
    rw [calls_putAll hwarn, calls_putAll hallow, calls_putAll hdeny]
    rfl

/-- It fails just where a text of the command line names no rule. Otherwise the lists of the command line
decide on the rules that they name, `warn` before `allow` and `allow` before `deny`, and all other rules
are as they were set. -/
theorem override_exact (settings flags : RuleLevels) :
    ((∃ e, settings.override flags = .error e) ↔
      ∃ level, ∃ text ∈ flags.list level, ∀ r : Rule, ¬r.CalledBy text) ∧
    (∀ e, settings.override flags = .error e →
      e.text ∈ flags.list e.level ∧ ∀ r : Rule, ¬r.CalledBy e.text) ∧
    ∀ merged, settings.override flags = .ok merged → ∀ r, merged.severity? r =
      if flags.Calls .warn r then some .warning
      else if flags.Calls .allow r then none
      else if flags.Calls .deny r then some .error
      else settings.severity? r := by
  have hfault : ∀ e, settings.override flags = .error e →
      e.text ∈ flags.list e.level ∧ ∀ r : Rule, ¬r.CalledBy e.text := by
    intro e he
    rcases override_cases settings flags with ⟨level, l, e', hput, hrun⟩ | ⟨-, -, m, -, -, -, hrun⟩
    · obtain rfl : e' = e := Except.error.inj (hrun.symm.trans he)
      obtain ⟨rfl, hmem, hnone⟩ := putAll_eq_error hput
      exact ⟨hmem, hnone⟩
    · rw [hrun] at he
      cases he
  refine ⟨⟨fun ⟨e, he⟩ => ⟨e.level, e.text, hfault e he⟩, ?_⟩, hfault, fun merged h r => ?_⟩
  · rintro ⟨level, text, hmem, hnone⟩
    rcases override_cases settings flags with ⟨-, -, e, -, hrun⟩ | ⟨denied, allowed, m, hdeny, hallow, hwarn, -⟩
    · exact ⟨e, hrun⟩
    · have hall : ∃ r : Rule, r.CalledBy text := by
        cases level with
        | deny => exact putAll_eq_ok hdeny text hmem
        | allow => exact putAll_eq_ok hallow text hmem
        | warn => exact putAll_eq_ok hwarn text hmem
      obtain ⟨r, hr⟩ := hall
      exact absurd hr (hnone r)
  · simp only [severity?_eq, calls_override h]
    split_ifs <;> simp_all

/-- Settings and a command line that name one rule on several lists and in several spellings. -/
def namedTwice : RuleLevels where
  deny := ["latch-inferred"]
  allow := ["CLOCKED_PROCESS_IMPURE", " latch_inferred"]
  warn := ["sensitivity-incomplete", "unused-signal"]

def flaggedTwice : RuleLevels where
  deny := ["clocked-process-impure", "latch-inferred"]
  warn := ["Latch_Inferred "]

theorem override_exact_namedTwice : ∃ merged, namedTwice.override flaggedTwice = .ok merged ∧
    merged.severity? .latchInferred = some .warning ∧
    merged.severity? .clockedProcessImpure = some .error ∧
    merged.severity? .sensitivityIncomplete = namedTwice.severity? .sensitivityIncomplete := by
  obtain ⟨-, -, hsettled⟩ := override_exact namedTwice flaggedTwice
  have hrun : namedTwice.override flaggedTwice = .ok ⟨["CLOCKED_PROCESS_IMPURE"], [],
      ["sensitivity-incomplete", "unused-signal", "LATCH_INFERRED"]⟩ := by
    decide +kernel
  refine ⟨_, hrun, ?_, ?_, ?_⟩
  · rw [hsettled _ hrun]
    decide +kernel
  · rw [hsettled _ hrun]
    decide +kernel
  · rw [hsettled _ hrun]
    decide +kernel

end RuleLevels

end HdlLint
