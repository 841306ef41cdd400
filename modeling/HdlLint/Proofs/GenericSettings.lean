import Mathlib.Data.List.Induction
import HdlLint.Settings
import HdlLint.Proofs.StableOrder
import HdlLint.Proofs.TextBytes
import HdlLint.Proofs.Words

/-!
# Values for generics

Settings give values to the generics of a top unit in tables, which are named without regard to case, as
are the generics. A dictionary made from a list keeps the last value of each name (`Dict.mem_ofList`), and
the tables and their keys are gone through in the order of their bytes. So of several values for one
generic the one whose table and key come last is kept, and it makes no difference whether the tables are
put together for one top unit or for all of them at once (`Settings.genericsFor_agree`).
-/

namespace HdlLint

/-! ### Dictionaries -/

namespace Dict
variable {α : Type} {d : Dict α} {name : String} {a : α} {e : String × α}

/-- The names are in ascending order, so each of them is there once. -/
def Ascending (d : Dict α) : Prop := d.Pairwise fun x y => x.1 < y.1

theorem mem_insert (h : d.Ascending) :
    e ∈ Dict.insert d name a ↔ e = (name, a) ∨ e ∈ d ∧ e.1 ≠ name := by
  induction d with
  | nil => simp [Dict.insert]
  | cons x rest ih =>
    obtain ⟨n, b⟩ := x
    obtain ⟨hn, hrest⟩ := List.pairwise_cons.1 h
    have hlater : ∀ {m : String}, m ≤ n → ∀ y ∈ rest, y.1 ≠ m := by
      rintro m hm y hy rfl
      exact absurd (hn y hy) (not_lt.2 hm)
    rw [Dict.insert]
    split_ifs with hlt heq
    · have hy := hlater hlt.le
      simp only [List.mem_cons]
      constructor
      · rintro (rfl | rfl | hmem)
        · exact .inl rfl
        · exact .inr ⟨.inl rfl, hlt.ne'⟩
        · exact .inr ⟨.inr hmem, hy e hmem⟩
      · rintro (rfl | ⟨rfl | hmem, -⟩)
        · exact .inl rfl
        · exact .inr (.inl rfl)
        · exact .inr (.inr hmem)
    · subst heq
      simp only [List.mem_cons]
      constructor
      · rintro (rfl | hmem)
        · exact .inl rfl
        · exact .inr ⟨.inr hmem, hlater le_rfl e hmem⟩
      · rintro (rfl | ⟨rfl | hmem, hne⟩)
        · exact .inl rfl
        · exact absurd rfl hne
        · exact .inr hmem
    · simp only [List.mem_cons, ih hrest]
      constructor
      · rintro (rfl | rfl | ⟨hmem, hne⟩)
        · exact .inr ⟨.inl rfl, Ne.symm heq⟩
        · exact .inl rfl
        · exact .inr ⟨.inr hmem, hne⟩
      · rintro (rfl | ⟨rfl | hmem, hne⟩)
        · exact .inr (.inl rfl)
        · exact .inl rfl
        · exact .inr (.inr ⟨hmem, hne⟩)

theorem Ascending.insert (h : d.Ascending) : Ascending (Dict.insert d name a) := by
  induction d with
  | nil => exact List.pairwise_singleton _ _
  | cons x rest ih =>
    obtain ⟨n, b⟩ := x
    obtain ⟨hn, hrest⟩ := List.pairwise_cons.1 h
    rw [Dict.insert]
    split_ifs with hlt heq
    · refine List.pairwise_cons.2 ⟨fun y hy => ?_, h⟩
      rcases List.mem_cons.1 hy with rfl | hmem
      · exact hlt
      · exact hlt.trans (hn y hmem)
    · exact List.pairwise_cons.2 ⟨heq ▸ hn, hrest⟩
    · refine List.pairwise_cons.2 ⟨fun y hy => ?_, ih hrest⟩
      rcases (mem_insert hrest).1 hy with rfl | ⟨hmem, -⟩
      · exact lt_of_le_of_ne (not_lt.1 hlt) (Ne.symm heq)
      · exact hn y hmem

theorem ofList_append_singleton (es : List (String × α)) (e : String × α) :
    ofList (es ++ [e]) = Dict.insert (ofList es) e.1 e.2 := by
  rw [ofList, List.foldl_append]
  rfl

theorem ofList_ascending (es : List (String × α)) : (ofList es).Ascending := by
  induction es using List.reverseRecOn with
  | nil => exact .nil
  | append_singleton es e ih =>
    rw [ofList_append_singleton]
    exact ih.insert

/-- The entries of the dictionary are the last ones of their names. -/
theorem mem_ofList {es : List (String × α)} :
    e ∈ ofList es ↔ ∃ front back, es = front ++ e :: back ∧ ∀ x ∈ back, x.1 ≠ e.1 := by
  induction es using List.reverseRecOn with
  | nil => simp [ofList]
  | append_singleton es y ih =>
    rw [ofList_append_singleton, mem_insert (ofList_ascending es), ih]
    constructor
    · rintro (rfl | ⟨⟨front, back, rfl, hback⟩, hne⟩)
      · exact ⟨es, [], rfl, nofun⟩
      · refine ⟨front, back ++ [y], by simp, fun x hx => ?_⟩
        rcases List.mem_append.1 hx with hmem | hmem
        · exact hback x hmem
        · rw [List.mem_singleton.1 hmem]
          exact Ne.symm hne
    · rintro ⟨front, back, heq, hback⟩
      rcases List.eq_nil_or_concat back with rfl | ⟨init, z, rfl⟩
      · exact .inl (List.singleton_inj.1 (List.append_inj' heq rfl).2).symm
      · rw [List.concat_eq_append, ← List.cons_append, ← List.append_assoc] at heq
        obtain ⟨rfl, hz⟩ := List.append_inj' heq rfl
        rw [List.concat_eq_append, ← hz] at hback
        obtain ⟨hinit, hy⟩ := List.forall_mem_append.1 hback
        exact .inr ⟨⟨front, init, rfl, hinit⟩, Ne.symm (hy y (List.mem_singleton_self y))⟩

/-- In a dictionary made from what is in order, the entries are the greatest ones of their names. -/
theorem mem_ofList_map {β : Type} {R : β → β → Prop} (hR : ∀ {x y}, R x y → ¬R y x) {l : List β}
    (hl : l.Pairwise R) {f : β → String × α} :
    e ∈ ofList (l.map f) ↔ ∃ x ∈ l, f x = e ∧ ∀ y ∈ l, (f y).1 = e.1 → y = x ∨ R y x := by
  rw [mem_ofList]
  constructor
  · rintro ⟨front, back, heq, hback⟩
    obtain ⟨before, tail, rfl, rfl, htail⟩ := List.map_eq_append_iff.1 heq
    obtain ⟨x, behind, rfl, rfl, rfl⟩ := List.map_eq_cons_iff.1 htail
    refine ⟨x, by simp, rfl, fun y hy hname => ?_⟩
    rcases List.mem_append.1 hy with hbefore | hy
    · exact .inr ((List.pairwise_append.1 hl).2.2 y hbefore x List.mem_cons_self)
    · rcases List.mem_cons.1 hy with rfl | hbehind
      · exact .inl rfl
      · exact absurd hname (hback _ (List.mem_map_of_mem hbehind))
  · rintro ⟨x, hx, rfl, hlast⟩
    obtain ⟨before, behind, rfl⟩ := List.append_of_mem hx
    refine ⟨before.map f, behind.map f, by simp, List.forall_mem_map.2 fun y hy hname => ?_⟩
    have hxy : R x y := List.rel_of_pairwise_cons (List.pairwise_append.1 hl).2.1 hy
    rcases hlast y (by simp [hy]) hname with rfl | hyx
    · exact hR hxy hxy
    · exact hR hxy hyx

/-- No name is lost. -/
theorem exists_mem_ofList {es : List (String × α)} (h : e ∈ es) : ∃ a, (e.1, a) ∈ ofList es := by
  induction es using List.reverseRecOn with
  | nil => cases h
  | append_singleton es y ih =>
    rw [ofList_append_singleton]
    by_cases hname : e.1 = y.1
    · exact ⟨y.2, (mem_insert (ofList_ascending es)).2 (.inl (congrArg (·, y.2) hname))⟩
    · rcases List.mem_append.1 h with h | h
      · obtain ⟨a, ha⟩ := ih h
        exact ⟨a, (mem_insert (ofList_ascending es)).2 (.inr ⟨ha, hname⟩)⟩
      · exact absurd (congrArg Prod.fst (List.mem_singleton.1 h)) hname

end Dict

/-! ### Tables -/

namespace Settings
variable {s : Settings} {top name unit key : String} {v : GenericSetting}

/-- The tables are in the order of their names, and so are the values in each of them. -/
structure Ordered (s : Settings) : Prop where
  tables : s.generics.Ascending
  values : ∀ t ∈ s.generics, Dict.Ascending t.2

/-- The table `unit` is one for the top unit, and has a value for the generic under `key`. -/
def Gives (s : Settings) (top name unit key : String) (v : GenericSetting) : Prop :=
  ∃ values, (unit, values) ∈ s.generics ∧ Ascii.lower unit = Ascii.lower top ∧
    (key, v) ∈ values ∧ Ascii.lower key = name

/-- A table and a key come before another table and key in the order of their bytes. -/
def Earlier (a b : String × String) : Prop :=
  Prod.Lex (· < ·) (· < ·) (Utf8.bytes a.1, Utf8.bytes a.2) (Utf8.bytes b.1, Utf8.bytes b.2)

theorem earlier_iff {a b : String × String} : Earlier a b ↔ a.1 < b.1 ∨ a.1 = b.1 ∧ a.2 < b.2 := by
  rw [Earlier, Prod.lex_def, ← Utf8.lt_iff_bytes_lt, ← Utf8.lt_iff_bytes_lt, Utf8.bytes_inj]

theorem Earlier.asymm {a b : String × String} (h : Earlier a b) : ¬Earlier b a := by
  rw [earlier_iff] at h ⊢
  rcases h with hlt | ⟨heq, hlt⟩
  · rintro (hgt | ⟨heq, -⟩)
    · exact lt_asymm hlt hgt
    · exact hlt.ne' heq
  · rintro (hgt | ⟨-, hgt⟩)
    · exact hgt.ne' heq
    · exact lt_asymm hlt hgt

/-- Every value for the top unit, with its table and its key, in the order in which they are gone through. -/
def givenFor (s : Settings) (top : String) : List ((String × String) × GenericSetting) :=
  (s.generics.filter fun t => Ascii.sameLetters t.1 top).flatMap fun t => t.2.map fun x => ((t.1, x.1), x.2)

theorem mem_givenFor {x : (String × String) × GenericSetting} :
    x ∈ s.givenFor top ↔ s.Gives top (Ascii.lower x.1.2) x.1.1 x.1.2 x.2 := by
  simp only [givenFor, List.mem_flatMap, List.mem_filter, List.mem_map, Ascii.sameLetters, beq_iff_eq]
  constructor
  · rintro ⟨t, ⟨ht, hunit⟩, y, hy, rfl⟩
    exact ⟨t.2, ht, hunit, hy, rfl⟩
  · rintro ⟨values, ht, hunit, hy, -⟩
    exact ⟨(x.1.1, values), ⟨ht, hunit⟩, (x.1.2, x.2), hy, rfl⟩

theorem givenFor_ascending (h : s.Ordered) : (s.givenFor top).Pairwise fun x y => Earlier x.1 y.1 := by
  refine List.pairwise_flatMap.2 ⟨fun t ht => ?_, ?_⟩
  · refine List.pairwise_map.2 ((h.values t (List.mem_filter.1 ht).1).imp fun hlt => ?_)
    exact earlier_iff.2 (.inr ⟨rfl, hlt⟩)
  · refine (h.tables.filter _).imp fun hlt x hx y hy => ?_
    obtain ⟨-, -, rfl⟩ := List.mem_map.1 hx
    obtain ⟨-, -, rfl⟩ := List.mem_map.1 hy
    exact earlier_iff.2 (.inl hlt)

theorem genericsFor_eq (s : Settings) (top : String) :
    s.genericsFor top = .ofList ((s.givenFor top).map fun x => (Ascii.lower x.1.2, x.2)) := by
  rw [genericsFor, givenFor, List.map_flatMap]
  simp only [List.map_map]
  rfl

/-- Of the values for a generic the one is kept whose table and key come last. -/
theorem mem_genericsFor (h : s.Ordered) : (name, v) ∈ s.genericsFor top ↔ ∃ unit key,
    s.Gives top name unit key v ∧ ∀ unit' key' v', s.Gives top name unit' key' v' →
      unit' = unit ∧ key' = key ∧ v' = v ∨ Earlier (unit', key') (unit, key) := by
  rw [genericsFor_eq, Dict.mem_ofList_map Earlier.asymm (givenFor_ascending h)]
  constructor
  · rintro ⟨⟨⟨unit, key⟩, v⟩, hx, heq, hlast⟩
    obtain ⟨rfl, rfl⟩ := Prod.mk.inj heq
    refine ⟨unit, key, mem_givenFor.1 hx, fun unit' key' v' hgives => ?_⟩
    obtain ⟨values, ht, hunit, hy, hname⟩ := hgives
    refine (hlast ((unit', key'), v') (mem_givenFor.2 ⟨values, ht, hunit, hy, rfl⟩) hname).imp_left ?_
    intro hxy
    simpa [and_assoc] using hxy
  · rintro ⟨unit, key, ⟨values, ht, hunit, hx, rfl⟩, hlast⟩
    refine ⟨((unit, key), v), mem_givenFor.2 ⟨values, ht, hunit, hx, rfl⟩, rfl, ?_⟩
    rintro ⟨⟨unit', key'⟩, v'⟩ hy hname
    obtain ⟨values', ht', hunit', hy', -⟩ := mem_givenFor.1 hy
    refine (hlast unit' key' v' ⟨values', ht', hunit', hy', hname⟩).imp_left ?_
    rintro ⟨rfl, rfl, rfl⟩
    rfl

theorem genericsFor_congr {top' : String} (h : Ascii.lower top' = Ascii.lower top) :
    s.genericsFor top' = s.genericsFor top := by
  simp only [genericsFor, Ascii.sameLetters, h]

theorem lower_of_mem_genericsFor {e : String × GenericSetting} (h : e ∈ s.genericsFor top) :
    Ascii.lower e.1 = e.1 := by
  rw [genericsFor_eq, Dict.mem_ofList] at h
  obtain ⟨front, back, heq, -⟩ := h
  have hmem : e ∈ (s.givenFor top).map fun x => (Ascii.lower x.1.2, x.2) := by simp [heq]
  obtain ⟨x, -, rfl⟩ := List.mem_map.1 hmem
  exact Ascii.lower_lower _

/-- What is put together for all top units at once is what is put together for the one. -/
theorem options_genericsFor (s : Settings) (top : String) :
    s.options.genericsFor top = (s.genericsFor top).map fun e => (e.1, e.2.toValue) := by
  let tables := s.generics.map fun t =>
    (Ascii.lower t.1, (s.genericsFor t.1).map fun e => (e.1, e.2.toValue))
  have hoptions : s.options.genericsFor top = ((Dict.ofList tables).lookup (Ascii.lower top)).getD [] := rfl
  rw [hoptions]
  cases hlookup : (Dict.ofList tables).lookup (Ascii.lower top) with
  | some values =>
    -- tables for one unit, however it is spelled, are put together to the same values
    obtain ⟨front, back, heq, -⟩ := List.lookup_eq_some_iff.1 hlookup
    have hkept : (Ascii.lower top, values) ∈ Dict.ofList tables := by simp [heq]
    obtain ⟨before, behind, hlast, -⟩ := Dict.mem_ofList.1 hkept
    have hmem : (Ascii.lower top, values) ∈ tables := by simp [hlast]
    obtain ⟨t, -, ht⟩ := List.mem_map.1 hmem
    obtain ⟨hunit, rfl⟩ := Prod.mk.inj ht
    rw [Option.getD_some, genericsFor_congr hunit]
  | none =>
    have hnone : s.givenFor top = [] := by
      refine List.eq_nil_iff_forall_not_mem.2 fun x hx => ?_
      obtain ⟨values, ht, hunit, -⟩ := mem_givenFor.1 hx
      obtain ⟨a, ha⟩ := Dict.exists_mem_ofList (List.mem_map_of_mem ht)
      exact bne_iff_ne.1 (List.lookup_eq_none_iff.1 hlookup _ ha) hunit.symm
    rw [genericsFor_eq, hnone]
    rfl

/-! ### Reading -/

section
variable {α : Type} {P : α → Prop} {fields : Fields α}
  (hfields : ∀ f ∈ fields, ∀ v a a', f.2 v a = some a' → P a → P a')
include hfields

theorem readEntries_keeps {es : List (String × Toml.Value)} {a a' : α}
    (h : readEntries fields es a = some a') (ha : P a) : P a' := by
  induction es generalizing a with
  | nil => exact Option.some.inj h ▸ ha
  | cons e es ih =>
    obtain ⟨k, v⟩ := e
    rw [readEntries] at h
    split at h
    · exact ih h ha
    · rename_i change hchange
      obtain ⟨b, hb, hrest⟩ := Option.bind_eq_some_iff.1 h
      obtain ⟨front, back, heq, -⟩ := List.lookup_eq_some_iff.1 hchange
      have hmem : (k, change) ∈ fields := by
        rw [heq]
        simp
      exact ih hrest (hfields _ hmem v a b hb ha)

theorem readElements_keeps {vs : List Toml.Value} {a a' : α} (h : readElements fields vs a = some a')
    (ha : P a) : P a' := by
  induction fields generalizing vs a with
  | nil => exact Option.some.inj h ▸ ha
  | cons f fields ih =>
    cases vs with
    | nil => exact Option.some.inj h ▸ ha
    | cons v vs =>
      obtain ⟨b, hb, hrest⟩ := Option.bind_eq_some_iff.1 h
      obtain ⟨hf, hrest'⟩ := List.forall_mem_cons.1 hfields
      exact ih hrest' hrest (hf v a b hb ha)

theorem readSection_keeps {v : Toml.Value} {a a' : α} (h : readSection fields v a = some a')
    (ha : P a) : P a' := by
  unfold readSection at h
  split at h
  · exact readEntries_keeps hfields h ha
  · exact readElements_keeps hfields h ha
  · exact Option.some.inj h ▸ ha
  · cases h

end

theorem exists_of_mem_mapM {α β : Type} {f : α → Option β} {as : List α} {bs : List β} {b : β}
    (h : as.mapM f = some bs) (hb : b ∈ bs) : ∃ a ∈ as, f a = some b := by
  induction as generalizing bs with
  | nil =>
    cases h
    cases hb
  | cons a as ih =>
    rw [List.mapM_cons] at h
    obtain ⟨c, hc, h⟩ := Option.bind_eq_some_iff.1 h
    obtain ⟨cs, hcs, h⟩ := Option.bind_eq_some_iff.1 h
    cases h
    rcases List.mem_cons.1 hb with rfl | hmem
    · exact ⟨a, List.mem_cons_self, hc⟩
    · obtain ⟨a', ha', hfa⟩ := ih hcs hmem
      exact ⟨a', List.mem_cons_of_mem _ ha', hfa⟩

theorem dict?_ascending {α : Type} {f : Toml.Value → Option α} {v : Toml.Value} {d : Dict α}
    (h : dict? f v = some d) : d.Ascending ∧ ∀ e ∈ d, ∃ w, f w = some e.2 := by
  cases v with
  | table es =>
    obtain ⟨xs, hxs, h⟩ := Option.bind_eq_some_iff.1 h
    cases h
    refine ⟨Dict.ofList_ascending xs, fun e he => ?_⟩
    obtain ⟨front, back, heq, -⟩ := Dict.mem_ofList.1 he
    obtain ⟨⟨k, w⟩, -, hw⟩ := exists_of_mem_mapM hxs (b := e) (by rw [heq]; simp)
    obtain ⟨a, ha, h⟩ := Option.bind_eq_some_iff.1 hw
    cases h
    exact ⟨w, ha⟩
  | _ => cases h

/-- What is read from a table is in order. -/
theorem read?_ordered {v : Toml.Value} (h : read? v = some s) : s.Ordered := by
  refine readSection_keeps (fun f hf v a a' ha' ha => ?_) h ⟨.nil, nofun⟩
  simp only [sections, List.mem_cons, List.not_mem_nil, or_false] at hf
  rcases hf with rfl | rfl | rfl | rfl | rfl
  iterate 4
    obtain ⟨_, -, h⟩ := Option.bind_eq_some_iff.1 ha'
    cases h
    exact ⟨ha.tables, ha.values⟩
  · obtain ⟨d, hd, h⟩ := Option.bind_eq_some_iff.1 ha'
    cases h
    obtain ⟨hascending, hvalues⟩ := dict?_ascending hd
    refine ⟨hascending, fun t ht => ?_⟩
    obtain ⟨w, hw⟩ := hvalues t ht
    exact (dict?_ascending hw).1

/-! ### Both lookups -/

/-- The values for a top unit are the same in the settings and in what is analysed according to them. They
are told by the name of the unit without regard to case, and of several values for one generic the one is
kept whose table and key come last in the order of their bytes. All settings that are read are in order,
whatever the table of the file is. -/
theorem genericsFor_agree : (∀ {v : Toml.Value} {s : Settings}, read? v = some s → s.Ordered) ∧
    ∀ {s : Settings}, s.Ordered → ∀ top : String,
      s.options.genericsFor top = (s.genericsFor top).map (fun e => (e.1, e.2.toValue)) ∧
      (∀ top', Ascii.lower top' = Ascii.lower top → s.genericsFor top' = s.genericsFor top ∧
        s.options.genericsFor top' = s.options.genericsFor top) ∧
      (∀ e ∈ s.genericsFor top, Ascii.lower e.1 = e.1) ∧
      (∀ e ∈ s.options.genericsFor top, Ascii.lower e.1 = e.1) ∧
      (s.genericsFor top).Ascending ∧
      ∀ name v, (name, v) ∈ s.genericsFor top ↔ ∃ unit key, s.Gives top name unit key v ∧
        ∀ unit' key' v', s.Gives top name unit' key' v' →
          unit' = unit ∧ key' = key ∧ v' = v ∨ Earlier (unit', key') (unit, key) := by
  refine ⟨read?_ordered, fun {s} h top => ?_⟩
  refine ⟨options_genericsFor s top, fun top' htop => ?_, fun e => lower_of_mem_genericsFor, fun e he => ?_,
    ?_, fun name v => mem_genericsFor h⟩
  · rw [options_genericsFor, options_genericsFor, genericsFor_congr htop]
    exact ⟨rfl, rfl⟩
  · rw [options_genericsFor] at he
    obtain ⟨x, hx, rfl⟩ := List.mem_map.1 he
    exact lower_of_mem_genericsFor hx
  · rw [genericsFor_eq]
    exact Dict.ofList_ascending _

/-- Three tables for one unit, with two spellings of one generic in the last of them. -/
def spelledApart : Settings where
  generics := [("ALU", [("width", .int 8)]), ("Alu", [("Fast", .bool true), ("width", .int 16)]),
    ("alu", [("WIDTH", .int 32), ("Width", .int 64)])]

theorem genericsFor_agree_spelledApart : spelledApart.Ordered ∧
    spelledApart.options.genericsFor "aLU" = [("fast", .bool true), ("width", .int 64)] ∧
    spelledApart.genericsFor "ALU" = spelledApart.genericsFor "aLU" ∧
    ∃ unit key, spelledApart.Gives "aLU" "width" unit key (.int 64) ∧
      ∀ unit' key' v', spelledApart.Gives "aLU" "width" unit' key' v' →
        unit' = unit ∧ key' = key ∧ v' = .int 64 ∨ Earlier (unit', key') (unit, key) := by
  have hordered : spelledApart.Ordered := by
    constructor
    · rw [Dict.Ascending]
      decide +kernel
    · simp only [Dict.Ascending]
      decide +kernel
  have hvalues : spelledApart.genericsFor "aLU" = [("fast", .bool true), ("width", .int 64)] := by
    decide +kernel
  obtain ⟨hoptions, hcase, -, -, -, hlast⟩ := genericsFor_agree.2 hordered "aLU"
  refine ⟨hordered, ?_, (hcase "ALU" (by decide +kernel)).1, (hlast "width" (.int 64)).1 ?_⟩
  · rw [hoptions, hvalues]
    rfl
  · rw [hvalues]
    decide

end Settings

end HdlLint
