import HdlLint.Analysis
import HdlLint.Proofs.Grouping
import HdlLint.Proofs.Provenance

/-!
# Instances that only differ in their place

`elaborate_twins`: two instances of one architecture whose generics have the same values have the same
signals, processes, summaries and findings, up to the paths in them, each of which is the path of the
instance followed by something that is the same for both. So merging puts the findings of the one with
those of the other, and a loop of such instances gives each of their entries one path per round.

Signals and processes are those of the unit put below the path of the instance (`Pending.build_core`).
No rule looks at a path, so the same holds of what a rule finds (`View.Below.findings_eq`).
-/

namespace HdlLint
open Design (Path SignalId Instance Process Signal Hierarchy)
open HdlLint.Flow (Summary)

def Finding.under (path : Path) (f : Finding) : Finding := { f with path := path ++ f.path }

/-- The instance is the other one, which is at the top, put below a path. -/
structure Design.Instance.MadeOf (i core : Instance) : Prop where
  atTop : core.path = []
  entity : i.entity = core.entity
  architecture : i.architecture = core.architecture
  signals : i.signals = core.signals.map (·.under i.path)
  processes : i.processes = core.processes.map (·.under i.path)

/-! ### What the rules see -/

namespace View

/-- A process with something about it, put below a path. -/
def placed {α : Type} (path : Path) (x : Process × α) : Process × α := (x.1.under path, x.2)

/-- The second view is the first one put below a path. -/
structure Below (path : Path) (c v : View) : Prop where
  top : v.top = c.top
  place : v.inst.path = path ++ c.inst.path
  entity : v.inst.entity = c.inst.entity
  architecture : v.inst.architecture = c.inst.architecture
  name : ∀ id, v.inst.signalName id = c.inst.signalName id
  processes : v.processes = c.processes.map (placed path)

namespace Below
variable {path : Path} {c v : View}

theorem quoted (h : Below path c v) (id : SignalId) : v.quoted id = c.quoted id := by
  rw [View.quoted, View.quoted, h.name]

theorem ofProcess (h : Below path c v) (rule : Rule) (p : Process) (message : String) (span : Span) :
    v.ofProcess rule (p.under path) message span = (c.ofProcess rule p message span).under path := by
  rw [View.ofProcess, View.ofProcess, h.top]
  rfl

theorem ofSignal (h : Below path c v) (rule : Rule) (id : SignalId) (message : String) (span : Span) :
    v.ofSignal rule id message span = (c.ofSignal rule id message span).under path := by
  rw [View.ofSignal, View.ofSignal, h.top, h.place, h.entity, h.architecture, h.name]
  rfl

theorem sensitivityOf (h : Below path c v) (p : Process) (s : Summary) :
    v.sensitivityOf (p.under path) s = (c.sensitivityOf p s).map (·.under path) := by
  unfold View.sensitivityOf
  have hsame : (p.under path).sensitivity = p.sensitivity := rfl
  rw [hsame]
  split_ifs
  · rfl
  · rw [List.map_map]
    refine List.map_congr_left fun (id, use) _ => ?_
    simp only [Function.comp_apply, h.quoted, h.ofProcess]

theorem latchesOf (h : Below path c v) (p : Process) (s : Summary) :
    v.latchesOf (p.under path) s = (c.latchesOf p s).map (·.under path) := by
  unfold View.latchesOf
  split_ifs
  · rfl
  · rw [List.map_map]
    refine List.map_congr_left fun id _ => ?_
    simp only [Function.comp_apply, h.quoted, h.ofProcess]
    rfl

theorem impuritiesOf (h : Below path c v) (p : Process) (s : Summary) :
    v.impuritiesOf (p.under path) s = (c.impuritiesOf p s).map (·.under path) := by
  unfold View.impuritiesOf
  split
  · rfl
  · rw [List.map_map]
    refine List.map_congr_left fun (id, span) _ => ?_
    simp only [Function.comp_apply, h.quoted, h.ofProcess]

/-- A rule that looks at one process after the other. -/
theorem flatMap_processes (h : Below path c v) {f g : Process → Summary → List Finding}
    (hfg : ∀ p s, f (p.under path) s = (g p s).map (·.under path)) :
    v.processes.flatMap (fun x => f x.1 x.2) =
      (c.processes.flatMap fun x => g x.1 x.2).map (·.under path) := by
  rw [h.processes, List.flatMap_map, List.map_flatMap]
  exact List.flatMap_congr fun x _ => hfg x.1 x.2

theorem registers (h : Below path c v) : v.registers = c.registers := by
  rw [View.registers, h.processes, List.foldl_map]
  rfl

theorem conflictsAmong (h : Below path c v) (rs : Flow.SignalSet) :
    View.conflictsAmong rs v.processes = View.conflictsAmong rs c.processes := by
  rw [View.conflictsAmong, h.processes, List.foldl_map]
  rfl

theorem clockedWriters (h : Below path c v) (id : SignalId) :
    v.clockedWriters id = (c.clockedWriters id).map (·.under path) := by
  rw [View.clockedWriters, h.processes, List.filter_map, View.clockedWriters, List.map_map, List.map_map]
  rfl

theorem dualDriver (h : Below path c v) (id : SignalId) (conflict : Conflict) :
    v.dualDriver id conflict = (c.dualDriver id conflict).under path := by
  simp only [View.dualDriver, h.quoted, h.ofSignal, h.clockedWriters, List.map_map]
  rfl

theorem findings_eq (h : Below path c v) (rule : Rule) :
    v.findings rule = (c.findings rule).map (·.under path) := by
  cases rule with
  | sensitivityIncomplete => exact h.flatMap_processes h.sensitivityOf
  | latchInferred => exact h.flatMap_processes h.latchesOf
  | clockedProcessImpure => exact h.flatMap_processes h.impuritiesOf
  | registerDualDriven =>
    rw [View.findings, View.registerDualDriven, h.registers, View.findings, View.registerDualDriven]
    dsimp only
    split_ifs
    · rfl
    · rw [h.conflictsAmong, List.map_map]
      exact List.map_congr_left fun (id, conflict) _ => h.dualDriver id conflict

theorem check_eq (h : Below path c v) (levels : RuleLevels) :
    (v.check levels).flatMap (·.2) = ((c.check levels).flatMap (·.2)).map (·.under path) := by
  simp only [View.check, List.flatMap_map, List.map_flatMap]
  refine List.flatMap_congr fun (r, severity) _ => ?_
  rw [h.findings_eq, List.map_map, List.map_map]
  rfl

end Below

/-- What the rules see of an instance that is made of the same as another one. -/
theorem below_ofInstance (top : String) (cap : Nat) {core i : Instance} (h : i.MadeOf core) :
    Below i.path (ofInstance top cap core) (ofInstance top cap i) := by
  refine ⟨rfl, ?_, h.entity, h.architecture, fun id => ?_, ?_⟩
  · rw [ofInstance, ofInstance, h.atTop, List.append_nil]
  · rw [ofInstance, ofInstance, Instance.signalName, Instance.signalName, h.signals, Array.getElem?_map]
    cases core.signals[id]? <;> rfl
  · rw [ofInstance, ofInstance, h.processes, Array.toList_map, List.map_map, List.map_map]
    rfl

end View

/-! ### Twins -/

/-- Instances of one unit with the same values of its generics. -/
def Design.Instance.SameUnit (i j : Instance) : Prop :=
  i.entity = j.entity ∧ i.architecture = j.architecture ∧ i.generics = j.generics

/-- All that is in the instances is the same, but that each path in the one starts with its own path
where that in the other starts with the other's. -/
structure Design.Instance.Twins (i j : Instance) : Prop where
  signals : ∃ signals : Array Signal,
    i.signals = signals.map (·.under i.path) ∧ j.signals = signals.map (·.under j.path)
  processes : ∃ processes : Array Process,
    i.processes = processes.map (·.under i.path) ∧ j.processes = processes.map (·.under j.path)
  summaries : ∀ cap, i.processes.map (Flow.summarize cap) = j.processes.map (Flow.summarize cap)
  findings : ∀ top cap rule, ∃ fs : List Finding,
    (View.ofInstance top cap i).findings rule = fs.map (·.under i.path) ∧
    (View.ofInstance top cap j).findings rule = fs.map (·.under j.path)

/-- The findings that count in an instance. -/
def Options.findingsIn (o : Options) (d : Hierarchy) (i : Instance) : List Finding :=
  ((View.ofInstance d.top o.maxWritePaths i).check o.rules).flatMap (·.2)

section
variable {l : Syntax.Library} {d : Hierarchy} {i j : Instance}

/-- Two instances of one unit with the same generics are made of the same. -/
theorem exists_core (h : d.Traced l) (hi : i ∈ d.instances) (hj : j ∈ d.instances) (hij : i.SameUnit j) :
    ∃ core, i.MadeOf core ∧ j.MadeOf core := by
  obtain ⟨p, _, hp, ⟨i₀, _, hbuild, rfl⟩, -⟩ := h i hi
  obtain ⟨q, _, hq, ⟨j₀, _, hbuild', rfl⟩, -⟩ := h j hj
  obtain ⟨hentity, harchitecture, hgenerics⟩ := hij
  obtain ⟨core, hcore, hsignals, hprocesses, -⟩ := Design.Pending.build_core hbuild
  obtain ⟨core', hcore', hsignals', hprocesses', -⟩ := Design.Pending.build_core hbuild'
  -- both keys stand for the same entity and architecture
  have hunit : p.unit = q.unit := by
    rw [← (Design.Pending.build_asks hp hbuild).1, ← (Design.Pending.build_asks hq hbuild').1]
    exact Design.UnitKey.mk.injEq .. ▸ ⟨hentity, harchitecture⟩
  have hq' : l.Binds p.unit q.entity q.architecture := hunit ▸ hq
  obtain ⟨he, ha⟩ := hp.unique hq'
  have hg : i₀.generics = j₀.generics := hgenerics
  rw [he, ha, hg, hcore'] at hcore
  obtain rfl := Except.ok.inj hcore
  exact ⟨⟨[], i₀.entity, i₀.architecture, [], [], core'.signals, core'.processes, [], .nowhere⟩,
    ⟨rfl, rfl, rfl, hsignals, hprocesses⟩, rfl, hentity.symm, harchitecture.symm, hsignals', hprocesses'⟩

theorem twins_of_madeOf {core : Instance} (hi : i.MadeOf core) (hj : j.MadeOf core) : i.Twins j := by
  refine ⟨⟨_, hi.signals, hj.signals⟩, ⟨_, hi.processes, hj.processes⟩, fun cap => ?_,
    fun top cap rule => ⟨_, (View.below_ofInstance top cap hi).findings_eq rule,
      (View.below_ofInstance top cap hj).findings_eq rule⟩⟩
  -- a summary does not look at the path of its process
  rw [hi.processes, hj.processes, Array.map_map, Array.map_map]
  rfl

/-- Each finding in the one instance has its counterpart in the other. -/
theorem findingsIn_twin {core : Instance} (hi : i.MadeOf core) (hj : j.MadeOf core) (o : Options)
    {n : Nat} {f : Finding} (hf : (o.findingsIn d i)[n]? = some f) : ∃ f' suffix,
      (o.findingsIn d j)[n]? = some f' ∧ f'.IsRepeatOf f ∧ f.path = i.path ++ suffix ∧
      f'.path = j.path ++ suffix := by
  have hi' := (View.below_ofInstance d.top o.maxWritePaths hi).check_eq o.rules
  have hj' := (View.below_ofInstance d.top o.maxWritePaths hj).check_eq o.rules
  rw [Options.findingsIn, hi', List.getElem?_map] at hf
  obtain ⟨g, hg, rfl⟩ := Option.map_eq_some_iff.1 hf
  refine ⟨g.under j.path, g.path, ?_, ⟨rfl, rfl⟩, rfl, rfl⟩
  rw [Options.findingsIn, hj', List.getElem?_map, hg]
  rfl

theorem mem_findings_of_mem {top : String} {o : Options}
    (h : Design.elaborate l top (o.genericsFor top) = .ok d) (htop : top ∈ o.topsOf l)
    (hi : i ∈ d.instances) {f : Finding} (hf : f ∈ o.findingsIn d i) :
    f ∈ (checkTops l o).flatMap (·.findings) := by
  obtain ⟨t, ht, hd⟩ := Design.Result.bind_eq_ok.1 h
  have hcheck : checkTop l o top = .ok ⟨t.graph.units.length, d, checkHierarchy o d⟩ :=
    Design.Result.bind_eq_ok.2 ⟨t, ht, Design.Result.bind_eq_ok.2 ⟨d, hd, rfl⟩⟩
  refine List.mem_flatMap.2 ⟨_, List.mem_map_of_mem htop, ?_⟩
  rw [TopRun.findings, hcheck]
  exact List.mem_flatMap.2 ⟨_, List.mem_map_of_mem hi, hf⟩

/-- A finding in one of two such instances is merged with its counterpart in the other. -/
def Options.MergesTwins (o : Options) (r : Report) (d : Hierarchy) : Prop :=
  ∀ i ∈ d.instances, ∀ j ∈ d.instances, i.SameUnit j → ∀ (n : Nat) f, (o.findingsIn d i)[n]? = some f →
    ∃ f' e, (o.findingsIn d j)[n]? = some f' ∧ r.EntryFor f e ∧ f.path ∈ e.paths ∧ f'.path ∈ e.paths

/-- Rounds of a loop with such an instance each give a path of their own to the entry of a finding in
one of them. -/
def Options.MergesRounds (o : Options) (r : Report) (d : Hierarchy) : Prop :=
  ∀ (around inside : Path) (label : String) (ks : List Int) (copy : Int → Instance), ks.Nodup →
    (∀ k ∈ ks, copy k ∈ d.instances ∧ (copy k).path = around ++ .generate label k :: inside) →
    (∀ k ∈ ks, ∀ k' ∈ ks, (copy k).SameUnit (copy k')) →
    ∀ k ∈ ks, ∀ f ∈ o.findingsIn d (copy k), ∃ e suffix, r.EntryFor f e ∧
      (ks.map fun k' => around ++ .generate label k' :: inside ++ suffix).Nodup ∧
      ∀ k' ∈ ks, around ++ .generate label k' :: inside ++ suffix ∈ e.paths

section
variable {top : String} {o : Options} (h : Design.elaborate l top (o.genericsFor top) = .ok d)
  (htop : top ∈ o.topsOf l) (hdedup : o.dedup = true) (hdigest : o.CollisionFree l) (sources : Sources)
include h htop hdedup hdigest

/-- The entry of a finding in an instance holds the paths of its counterparts. -/
theorem exists_entryFor_twin (hi : i ∈ d.instances) {n : Nat} {f : Finding}
    (hf : (o.findingsIn d i)[n]? = some f) : ∃ e suffix, (analyze l sources o).EntryFor f e ∧
      f.path = i.path ++ suffix ∧ ∀ j ∈ d.instances, i.SameUnit j →
        ∃ f', (o.findingsIn d j)[n]? = some f' ∧ f'.path = j.path ++ suffix ∧ f'.path ∈ e.paths := by
  have htraced := Design.elaborate_traced h
  have hmem := mem_findings_of_mem h htop hi (List.mem_of_getElem? hf)
  obtain ⟨e, he, hpaths⟩ := Report.exists_entryFor sources (hdigest hdedup)
    ((checkTops l o).filterMap (·.failure?)) hmem
  obtain ⟨core, hcore, -⟩ := exists_core htraced hi hi ⟨rfl, rfl, rfl⟩
  obtain ⟨-, suffix, -, -, hsuffix, -⟩ := findingsIn_twin hcore hcore o hf
  refine ⟨e, suffix, ?_, hsuffix, fun j hj hij => ?_⟩
  · rwa [analyze, reportOn, hdedup]
  · obtain ⟨core', hi', hj'⟩ := exists_core htraced hi hj hij
    obtain ⟨f', suffix', hf', hsame, hpath, hpath'⟩ := findingsIn_twin hi' hj' o hf
    have hmem' := mem_findings_of_mem h htop hj (List.mem_of_getElem? hf')
    obtain rfl : suffix = suffix' := List.append_cancel_left (hsuffix.symm.trans hpath)
    exact ⟨f', hf', hpath', hpaths f' hmem' hsame⟩

theorem mergesTwins : o.MergesTwins (analyze l sources o) d := by
  intro i hi j hj hij n f hf
  obtain ⟨e, suffix, he, -, hpaths⟩ := exists_entryFor_twin h htop hdedup hdigest sources hi hf
  obtain ⟨f₁, hf₁, -, hpath⟩ := hpaths i hi ⟨rfl, rfl, rfl⟩
  obtain ⟨f', hf', -, hpath'⟩ := hpaths j hj hij
  obtain rfl := Option.some.inj (hf.symm.trans hf₁)
  exact ⟨f', e, hf', he, hpath, hpath'⟩

theorem mergesRounds : o.MergesRounds (analyze l sources o) d := by
  intro around inside label ks copy hks hcopy hsame k hk f hf
  obtain ⟨n, hn⟩ := List.getElem?_of_mem hf
  obtain ⟨e, suffix, he, -, hpaths⟩ := exists_entryFor_twin h htop hdedup hdigest sources (hcopy k hk).1 hn
  refine ⟨e, suffix, he, hks.map fun k₁ k₂ heq => ?_, fun k' hk' => ?_⟩
  · -- the paths differ in the round
    simpa using heq
  · obtain ⟨f', -, hpath, hmem⟩ := hpaths _ (hcopy k' hk').1 (hsame k hk k' hk')
    rwa [hpath, (hcopy k' hk').2] at hmem

end

end

/-- Instances of one architecture with equal generics cannot be told apart but by their paths. Findings are
merged with their counterparts if the digest has no collision. -/
theorem elaborate_twins {l : Syntax.Library} {top : String} {overrides : Design.Overrides}
    {d : Hierarchy} (h : Design.elaborate l top overrides = .ok d) :
    (∀ i ∈ d.instances, ∀ j ∈ d.instances, i.SameUnit j → i.Twins j) ∧ d.HasRounds l ∧
      ∀ (o : Options) (sources : Sources), o.dedup = true → o.CollisionFree l → top ∈ o.topsOf l →
        o.genericsFor top = overrides →
          o.MergesTwins (analyze l sources o) d ∧ o.MergesRounds (analyze l sources o) d := by
  have htraced := Design.elaborate_traced h
  refine ⟨fun i hi j hj hij => ?_, htraced.hasRounds, fun o sources hdedup hdigest htop hgenerics => ?_⟩
  · obtain ⟨core, hi', hj'⟩ := exists_core htraced hi hj hij
    exact twins_of_madeOf hi' hj'
  · subst hgenerics
    exact ⟨mergesTwins h htop hdedup hdigest sources, mergesRounds h htop hdedup hdigest sources⟩

/-- A loop of two rounds, each with an instance of a unit that has a generic and a latch. -/
def latchPair : Syntax.Library :=
  let bit : Syntax.Subtype := ⟨"bit", none, .nowhere⟩
  let named (name : String) : Syntax.Expr := .name ⟨name, .nowhere⟩
  let hold : Syntax.Process :=
    ⟨none, .list [⟨"en", .nowhere⟩, ⟨"d", .nowhere⟩],
      [.ifs [⟨named "en", [.assign ⟨⟨"q", .nowhere⟩, none⟩ (named "d") .nowhere]⟩] none .nowhere],
      .nowhere⟩
  let cell : Syntax.Entity :=
    ⟨"cell", [⟨"w", .natural, none, .nowhere⟩],
      [⟨"en", .input, bit, .nowhere⟩, ⟨"d", .input, bit, .nowhere⟩, ⟨"q", .output, bit, .nowhere⟩],
      .nowhere⟩
  let bank : Syntax.Entity := ⟨"bank", [], [⟨"x", .input, bit, .nowhere⟩], .nowhere⟩
  let part : Syntax.Instantiation :=
    ⟨"part", "cell", none, [⟨none, .expr (.int 4 .nowhere), .nowhere⟩],
      [⟨none, .expr (named "x"), .nowhere⟩, ⟨none, .expr (named "x"), .nowhere⟩,
        ⟨none, .leftOpen, .nowhere⟩], .nowhere⟩
  let parts : Syntax.Generate :=
    ⟨"parts", "i", ⟨.int 0 .nowhere, .to, .int 1 .nowhere⟩, [], [.instantiation part], .nowhere⟩
  { entities := [cell, bank]
    architectures := [⟨"rtl", "cell", [], [.process hold], .nowhere⟩,
      ⟨"rtl", "bank", [], [.generate parts], .nowhere⟩] }

theorem elaborate_twins_latchPair : ∃ d, Design.elaborate latchPair "bank" [] = .ok d ∧
    d.instances.map (fun i => (i.path, i.unit, i.generics)) =
      [([], ⟨"bank", "rtl"⟩, []),
        ([.generate "parts" 0, .inst "part"], ⟨"cell", "rtl"⟩, [("w", .int 4)]),
        ([.generate "parts" 1, .inst "part"], ⟨"cell", "rtl"⟩, [("w", .int 4)])] ∧
    d.instances.map (fun i => (({} : Options).findingsIn d i).map (·.rule)) =
      [[], [.latchInferred], [.latchInferred]] ∧
    (∀ i ∈ d.instances, ∀ j ∈ d.instances, i.SameUnit j → i.Twins j) ∧ d.HasRounds latchPair ∧
    ({} : Options).MergesTwins (analyze latchPair {} {}) d ∧
    ({} : Options).MergesRounds (analyze latchPair {} {}) d := by
  have hunits : (Design.elaborate latchPair "bank" []).toOption.map (fun d =>
      d.instances.map (fun i => (i.path, i.unit, i.generics))) =
      some [([], ⟨"bank", "rtl"⟩, []),
        ([.generate "parts" 0, .inst "part"], ⟨"cell", "rtl"⟩, [("w", .int 4)]),
        ([.generate "parts" 1, .inst "part"], ⟨"cell", "rtl"⟩, [("w", .int 4)])] := by decide +kernel
  have hrules : (Design.elaborate latchPair "bank" []).toOption.map (fun d =>
      d.instances.map (fun i => (({} : Options).findingsIn d i).map (·.rule))) =
      some [[], [.latchInferred], [.latchInferred]] := by decide +kernel
  cases h : Design.elaborate latchPair "bank" [] with
  | error e => rw [h] at hunits; cases hunits
  | ok d =>
    rw [h] at hunits hrules
    obtain ⟨htwins, hrounds, hmerges⟩ := elaborate_twins h
    obtain ⟨hmerges, hmerges'⟩ := hmerges {} {} rfl (fun _ => collisionFree_id _) (by decide +kernel) rfl
    exact ⟨d, rfl, Option.some.inj hunits, Option.some.inj hrules, htwins, hrounds, hmerges, hmerges'⟩

end HdlLint
