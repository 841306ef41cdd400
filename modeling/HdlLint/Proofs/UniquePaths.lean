import Mathlib.Data.List.DropRight
import Mathlib.Data.List.Nodup
import HdlLint.Proofs.BreadthFirst
import HdlLint.Proofs.Conflicts
import HdlLint.Proofs.PathTexts
import HdlLint.Proofs.Twins

/-!
# Instances are told by their paths

If no two statements of one block have the same label, then no two copies of statements in an instance
have the same path (`Reaches.site_eq`). A path also tells the path of the instance above: it ends where
the last label of an instance before its own does (`Path.above`). So paths stay distinct while instances
are built (`Worklist.Apart`): what is asked for is below the instance that is built, and nothing was below
that one before.

`elaborate_paths` says this of the hierarchy, of the texts of the paths if the labels are plain, and of the
paths at which something is found.
-/

namespace HdlLint.Syntax

/-- The label under which a statement appears in paths. -/
def Concurrent.label? : Concurrent → Option String
  | .process _ => none
  | .instantiation i => some i.label
  | .generate g => some g.label

/-- The second list is the first one, or the body of a loop in it, at any depth. -/
inductive Block : List Concurrent → List Concurrent → Prop
  | whole {cs : List Concurrent} : Block cs cs
  | body {cs b : List Concurrent} {g : Generate} : .generate g ∈ cs → Block g.body b → Block cs b

/-- No two instances or loops of one block have the same label. -/
def DistinctLabels (cs : List Concurrent) : Prop :=
  ∀ b, Block cs b → (b.filterMap Concurrent.label?).Nodup

theorem DistinctLabels.body {cs : List Concurrent} {g : Generate} (h : DistinctLabels cs)
    (hg : .generate g ∈ cs) : DistinctLabels g.body :=
  fun b hb => h b (.body hg hb)

def Library.DistinctLabels (l : Library) : Prop := ∀ a ∈ l.architectures, Syntax.DistinctLabels a.body

/-- An instance or a loop of the library has this label. -/
def Library.HasLabel (l : Library) (label : String) : Prop :=
  ∃ a ∈ l.architectures, ∃ b, Block a.body b ∧ label ∈ b.filterMap Concurrent.label?

end HdlLint.Syntax

namespace HdlLint.Design
open Syntax (Library Block DistinctLabels)

/-! ### Copies in an instance -/

def Part.label? : Part → Option String
  | .decl _ => none
  | .stmt c => c.label?

/-- The statements among these parts have distinct labels, and so have those in their loops. -/
structure PartsDistinct (xs : List Part) : Prop where
  labels : (xs.filterMap Part.label?).Nodup
  loops : ∀ g, .stmt (.generate g) ∈ xs → DistinctLabels g.body

theorem filterMap_label?_stmts (cs : List Syntax.Concurrent) :
    (cs.map Part.stmt).filterMap Part.label? = cs.filterMap Syntax.Concurrent.label? := by
  rw [List.filterMap_map]
  rfl

theorem filterMap_label?_partsOf (g : Syntax.Generate) :
    (partsOf g).filterMap Part.label? = g.body.filterMap Syntax.Concurrent.label? := by
  have hdecls : (g.decls.map Part.decl).filterMap Part.label? = [] := by
    rw [List.filterMap_map]
    exact List.filterMap_eq_nil_iff.2 fun _ _ => rfl
  rw [partsOf, List.filterMap_append, hdecls, filterMap_label?_stmts, List.nil_append]

theorem partsDistinct_stmts {cs : List Syntax.Concurrent} (h : DistinctLabels cs) :
    PartsDistinct (cs.map .stmt) := by
  refine ⟨?_, fun g hg => ?_⟩
  · rw [filterMap_label?_stmts]
    exact h cs .whole
  · exact h.body (stmt_mem_stmts.1 hg)

theorem partsDistinct_partsOf {g : Syntax.Generate} (h : DistinctLabels g.body) :
    PartsDistinct (partsOf g) := by
  refine ⟨?_, fun g' hg' => ?_⟩
  · rw [filterMap_label?_partsOf]
    exact h g.body .whole
  · exact h.body (stmt_mem_partsOf.1 hg')

theorem PartsDistinct.tail {x : Part} {xs : List Part} (h : PartsDistinct (x :: xs)) :
    PartsDistinct xs :=
  ⟨h.labels.sublist ((List.sublist_cons_self x xs).filterMap _),
    fun g hg => h.loops g (List.mem_cons_of_mem _ hg)⟩

theorem PartsDistinct.notMem {x : Part} {xs : List Part} {label : String} (h : PartsDistinct (x :: xs))
    (hx : x.label? = some label) : label ∉ xs.filterMap Part.label? := by
  have hlabels := h.labels
  rw [List.filterMap_cons_some hx] at hlabels
  exact (List.nodup_cons.1 hlabels).1

section
variable {ν : Site → SignalId} {o q q' : Place} {xs : List Part} {s s' : Syntax.Instantiation}

/-- The path of the instance that a statement asks for at a place. -/
def Place.childPath (q : Place) (s : Syntax.Instantiation) : Path := q.path ++ [.inst s.label]

/-- The path goes on with the label of one of the parts. -/
theorem Reaches.segment (h : Reaches ν o xs q (.stmt (.instantiation s))) : ∃ segment rest,
    q.childPath s = o.path ++ segment :: rest ∧ segment.label ∈ xs.filterMap Part.label? := by
  generalize hy : Part.stmt (.instantiation s) = y at h
  induction h with
  | here =>
    subst hy
    exact ⟨.inst s.label, [], rfl, List.mem_cons_self⟩
  | @later o o' q x y xs hnext _ ih =>
    obtain ⟨segment, rest, hpath, hlabel⟩ := ih hy
    obtain ⟨scope, rfl⟩ := Place.next_eq hnext
    exact ⟨segment, rest, hpath, ((List.sublist_cons_self x xs).filterMap _).mem hlabel⟩
  | @inside o q y g r k xs _ _ ih =>
    obtain ⟨segment, rest, hpath, -⟩ := ih hy
    refine ⟨.generate g.label k, segment :: rest, ?_, List.mem_cons_self⟩
    rw [hpath, Place.round, List.append_assoc]
    rfl

theorem IsRound.number_eq {scope : Scope} {g : Syntax.Generate} {r r' : Nat} {k : Int}
    (h : IsRound scope g r k) (h' : IsRound scope g r' k) : r = r' := by
  obtain ⟨left, right, hleft, hright, -⟩ := id h
  obtain ⟨-, hk⟩ := (isRound_iff hleft hright r k).1 h
  obtain ⟨-, hk'⟩ := (isRound_iff hleft hright r' k).1 h'
  rw [hk] at hk'
  revert hk'
  cases g.range.direction <;> simp only [roundIndex] <;> omega

theorem Reaches.childPath_of_round {g : Syntax.Generate} {r : Nat} {k : Int}
    (h : Reaches ν (o.round g r k) (partsOf g) q (.stmt (.instantiation s))) :
    ∃ rest, q.childPath s = o.path ++ .generate g.label k :: rest := by
  obtain ⟨segment, rest, hpath, -⟩ := h.segment
  refine ⟨segment :: rest, ?_⟩
  rw [hpath, Place.round, List.append_assoc]
  rfl

/-- Behind a part no path goes on with its label. -/
theorem Reaches.childPath_ne {x : Part} {o' : Place} {segment : Segment} {rest : Path}
    (h : Reaches ν o' xs q (.stmt (.instantiation s))) (hnext : o.next ν x = .ok o')
    (hxs : PartsDistinct (x :: xs)) (hx : x.label? = some segment.label) :
    q.childPath s ≠ o.path ++ segment :: rest := by
  intro heq
  obtain ⟨segment', rest', hpath, hlabel⟩ := h.segment
  obtain ⟨scope, rfl⟩ := Place.next_eq hnext
  rw [hpath] at heq
  obtain ⟨rfl, -⟩ := List.cons.inj (List.append_cancel_left heq)
  exact hxs.notMem hx hlabel

/-- Two copies with one path are one copy. -/
theorem Reaches.site_eq (h : Reaches ν o xs q (.stmt (.instantiation s)))
    (h' : Reaches ν o xs q' (.stmt (.instantiation s'))) (hxs : PartsDistinct xs)
    (hpath : q.childPath s = q'.childPath s') : q.site = q'.site := by
  generalize hy : Part.stmt (.instantiation s) = y at h
  induction h with
  | here =>
    subst hy
    cases h' with
    | here => rfl
    | later hnext h' => exact absurd hpath.symm (h'.childPath_ne hnext hxs rfl)
  | later hnext h ih =>
    subst hy
    cases h' with
    | here => exact absurd hpath (h.childPath_ne hnext hxs rfl)
    | later hnext' h' =>
      obtain rfl := Except.ok.inj (hnext.symm.trans hnext')
      exact ih h' hxs.tail hpath rfl
    | inside _ h' =>
      obtain ⟨rest, hpath'⟩ := h'.childPath_of_round
      exact absurd (hpath.trans hpath') (h.childPath_ne hnext hxs rfl)
  | @inside o q y g r k xs hround h ih =>
    subst hy
    obtain ⟨rest, hrest⟩ := h.childPath_of_round
    cases h' with
    | later hnext h' => exact absurd (hpath.symm.trans hrest) (h'.childPath_ne hnext hxs rfl)
    | @inside _ _ _ _ r' k' _ hround' h' =>
      -- both paths go on with the label of the loop, so they are in one round
      obtain ⟨rest', hrest'⟩ := h'.childPath_of_round
      rw [hpath, hrest'] at hrest
      obtain ⟨hsegment, -⟩ := List.cons.inj (List.append_cancel_left hrest)
      obtain ⟨-, rfl⟩ := Segment.generate.inj hsegment
      obtain rfl := hround.number_eq hround'
      exact ih h' (partsDistinct_partsOf (hxs.loops g List.mem_cons_self)) hpath rfl

end

/-! ### Paths of instances -/

def Segment.isRound : Segment → Bool
  | .inst _ => false
  | .generate _ _ => true

namespace Path

/-- The path of the instance in which a place is. -/
def owner (p : Path) : Path := p.rdropWhile Segment.isRound

/-- The path of the instance above one. -/
def above (p : Path) : Path := owner p.dropLast

/-- No round of a loop stands at the end. -/
def EndsAtInstance (p : Path) : Prop := p.owner = p

theorem EndsAtInstance.owner_append {p rounds : Path} (h : p.EndsAtInstance)
    (hrounds : ∀ s ∈ rounds, s.isRound = true) : owner (p ++ rounds) = p := by
  induction rounds using List.reverseRecOn with
  | nil => rwa [List.append_nil]
  | append_singleton rounds s ih =>
    rw [← List.append_assoc, owner, List.rdropWhile_concat_pos _ _ _ (hrounds s (by simp))]
    exact ih fun t ht => hrounds t (by simp [ht])

theorem endsAtInstance_concat (p : Path) (label : String) : EndsAtInstance (p ++ [.inst label]) :=
  List.rdropWhile_concat_neg _ _ _ (by simp [Segment.isRound])

end Path

theorem mem_roundSegments {gs : List Syntax.Generate} {ks : List Int} {s : Segment}
    (h : s ∈ roundSegments gs ks) : ∃ g ∈ gs, ∃ k, s = .generate g.label k := by
  induction gs generalizing ks with
  | nil => cases h
  | cons g gs ih =>
    cases ks with
    | nil => cases h
    | cons k ks =>
      rcases List.mem_cons.1 h with rfl | h
      · exact ⟨g, List.mem_cons_self, k, rfl⟩
      · obtain ⟨g', hg', hs⟩ := ih h
        exact ⟨g', List.mem_cons_of_mem _ hg', hs⟩

theorem isRound_of_mem_roundSegments {gs : List Syntax.Generate} {ks : List Int} :
    ∀ s ∈ roundSegments gs ks, s.isRound = true := by
  intro s hs
  obtain ⟨g, -, k, rfl⟩ := mem_roundSegments hs
  rfl

/-- What stands inside of loops stands in a block, and so do the loops. -/
theorem Enclosed.blocks {xs : List Part} {gs : List Syntax.Generate} {x : Part} (h : Enclosed xs gs x)
    {cs : List Syntax.Concurrent} (hcs : ∀ c, .stmt c ∈ xs → c ∈ cs) :
    (∀ c, x = .stmt c → ∃ b, Block cs b ∧ c ∈ b) ∧
      ∀ g ∈ gs, ∃ b, Block cs b ∧ .generate g ∈ b := by
  induction h generalizing cs with
  | here hx =>
    refine ⟨?_, by simp⟩
    rintro c rfl
    exact ⟨cs, .whole, hcs c hx⟩
  | @inside xs x g gs hg _ ih =>
    obtain ⟨hstmt, hloops⟩ := ih fun c hc => stmt_mem_partsOf.1 hc
    refine ⟨fun c hc => ?_, fun g' hg' => ?_⟩
    · obtain ⟨b, hb, hmem⟩ := hstmt c hc
      exact ⟨b, .body (hcs _ hg) hb, hmem⟩
    · rcases List.mem_cons.1 hg' with rfl | hg'
      · exact ⟨cs, .whole, hcs _ hg⟩
      · obtain ⟨b, hb, hmem⟩ := hloops g' hg'
        exact ⟨b, .body (hcs _ hg) hb, hmem⟩

section
variable {l : Library} {u : Unrolling} {p c : Pending} {i : Instance} {children : List Pending}

theorem hasLabel_of_mem {a : Syntax.Architecture} {b : List Syntax.Concurrent} {x : Syntax.Concurrent}
    {label : String} (ha : a ∈ l.architectures) (hb : Block a.body b) (hx : x ∈ b)
    (hlabel : x.label? = some label) : l.HasLabel label :=
  ⟨a, ha, b, hb, List.mem_filterMap.2 ⟨x, hx, hlabel⟩⟩

theorem hasLabel_of_mem_roundSegments (hp : p.Bound l) {gs : List Syntax.Generate} {ks : List Int}
    {x : Part} (hgs : Enclosed (p.architecture.body.map .stmt) gs x) :
    ∀ s ∈ roundSegments gs ks, l.HasLabel s.label := by
  intro s hs
  obtain ⟨g, hg, k, rfl⟩ := mem_roundSegments hs
  obtain ⟨b, hb, hmem⟩ := (hgs.blocks fun c hc => stmt_mem_stmts.1 hc).2 g hg
  exact hasLabel_of_mem hp.spec.2.2.2 hb hmem rfl

/-- What is asked for stands below the instance, at labels of the library. -/
theorem Unrolling.Of.childPath (h : u.Of l p i children) (hp : p.Bound l) (hc : c ∈ children)
    (hends : p.path.EndsAtInstance) : c.path ≠ [] ∧ c.path.EndsAtInstance ∧ c.path.above = p.path ∧
      ∀ s ∈ c.path, s ∈ p.path ∨ l.HasLabel s.label := by
  obtain ⟨q, s, gs, ks, -, -, hgs, -, -, -, hpath⟩ := h.asksFor hc
  rw [hpath]
  refine ⟨by simp, Path.endsAtInstance_concat _ _, ?_, fun t ht => ?_⟩
  · rw [Path.above, List.dropLast_concat]
    exact hends.owner_append isRound_of_mem_roundSegments
  · rcases List.mem_append.1 ht with ht | ht
    · rcases List.mem_append.1 ht with ht | ht
      · exact .inl ht
      · exact .inr (hasLabel_of_mem_roundSegments hp hgs t ht)
    · obtain rfl := List.mem_singleton.1 ht
      obtain ⟨b, hb, hmem⟩ := (hgs.blocks fun c hc => stmt_mem_stmts.1 hc).1 _ rfl
      exact .inr (hasLabel_of_mem hp.spec.2.2.2 hb hmem rfl)

theorem Unrolling.Of.nodup_paths (h : u.Of l p i children) (hp : p.Bound l) (hl : l.DistinctLabels) :
    (children.map (·.path)).Nodup := by
  have hparts := partsDistinct_stmts (hl p.architecture hp.spec.2.2.2)
  rw [h.children, childrenOf, List.Nodup, List.pairwise_map, List.pairwise_filterMap]
  refine h.order.imp_of_mem fun {m m'} hm hm' hbefore c hc c' hc' heq => ?_
  obtain ⟨q, x, hq, hsite, hdescribes⟩ := h.answers.sound m hm
  obtain ⟨q', x', hq', hsite', hdescribes'⟩ := h.answers.sound m' hm'
  obtain ⟨site, item⟩ := m
  obtain ⟨site', item'⟩ := m'
  cases hdescribes with
  | signal _ => cases hc
  | process _ _ => cases hc
  | child hmade =>
    cases hdescribes' with
    | signal _ => cases hc'
    | process _ _ => cases hc'
    | child hmade' =>
      obtain rfl := Option.some.inj hc
      obtain rfl := Option.some.inj hc'
      rw [path_of_instantiate hmade, path_of_instantiate hmade'] at heq
      refine hbefore.ne ?_
      rw [hsite, hsite']
      exact hq.site_eq hq' hparts heq

end

/-! ### Hierarchies -/

namespace Worklist
variable {l : Library}

def paths (w : Worklist) : List Path := w.entries.map (·.2)

/-- What every step keeps. -/
structure Apart (l : Library) (w : Worklist) : Prop where
  bound : ∀ p ∈ w.queue, p.Bound l
  ends : ∀ x ∈ w.paths, x.EndsAtInstance
  labels : ∀ x ∈ w.paths, ∀ s ∈ x, l.HasLabel s.label
  above : ∀ x ∈ w.paths, x ≠ [] → x.above ∈ w.built.map (·.path)
  nodup : w.paths.Nodup

theorem Apart.start {p : Pending} (hp : p.Bound l) (hpath : p.path = []) : Apart l ⟨[], [p]⟩ := by
  have hpaths : (Worklist.mk [] [p]).paths = [[]] := congrArg (fun x => [x]) hpath
  refine ⟨fun q hq => ?_, ?_, ?_, ?_, ?_⟩
  · rwa [List.mem_singleton.1 hq]
  · rw [hpaths]
    exact List.forall_mem_singleton.2 rfl
  · rw [hpaths]
    exact List.forall_mem_singleton.2 (by simp)
  · rw [hpaths]
    exact List.forall_mem_singleton.2 fun hne => absurd rfl hne
  · rw [hpaths]
    exact List.nodup_singleton _

theorem Apart.step (hl : l.DistinctLabels) {w w' : Worklist} (hw : w.Apart l) (hstep : Step l w w') :
    w'.Apart l := by
  cases hstep with
  | @build built p queue children i hbuild =>
    have hp := hw.bound p List.mem_cons_self
    obtain ⟨hunit, hasks⟩ := Pending.build_asks hp hbuild
    have hpath := Pending.path_of_build hbuild
    obtain ⟨u, hu⟩ := Pending.build_unrolling hbuild
    have hold : (Worklist.mk built (p :: queue)).paths =
        built.map (·.path) ++ p.path :: queue.map (·.path) := by
      simp [paths, entries, Function.comp_def]
    have hends := hw.ends p.path (by simp [hold])
    have hlabels := hw.labels p.path (by simp [hold])
    -- what is built now has not been above anything before
    have hnew : p.path ∉ built.map (·.path) := by
      have hnodup := hw.nodup
      rw [hold] at hnodup
      exact fun hmem => (List.nodup_append.1 hnodup).2.2 _ hmem _ List.mem_cons_self rfl
    have hpaths : paths ⟨attach built p.parent i, queue ++ children.map (Pending.askedBy built.length)⟩ =
        paths ⟨built, p :: queue⟩ ++ children.map (·.path) := by
      rw [paths, entries_build hunit hpath, List.map_append, List.map_map]
      rfl
    have hbuilt : (attach built p.parent i).map (·.path) = built.map (·.path) ++ [i.path] :=
      map_attach fun _ _ => rfl
    refine ⟨List.forall_mem_append.2 ⟨fun q hq => ?_, List.forall_mem_map.2 fun c hc => ?_⟩, ?_, ?_, ?_, ?_⟩
    · exact hw.bound q (List.mem_cons_of_mem _ hq)
    · exact (hasks c hc).1
    · rw [hpaths]
      refine List.forall_mem_append.2 ⟨hw.ends, List.forall_mem_map.2 fun c hc => ?_⟩
      exact (hu.childPath hp hc hends).2.1
    · rw [hpaths]
      refine List.forall_mem_append.2 ⟨hw.labels, List.forall_mem_map.2 fun c hc s hs => ?_⟩
      rcases (hu.childPath hp hc hends).2.2.2 s hs with hs | hs
      · exact hlabels s hs
      · exact hs
    · rw [hpaths]
      refine List.forall_mem_append.2 ⟨fun x hx hne => ?_, List.forall_mem_map.2 fun c hc _ => ?_⟩
      · rw [hbuilt]
        exact List.mem_append_left _ (hw.above x hx hne)
      · rw [hbuilt, (hu.childPath hp hc hends).2.2.1, ← hpath]
        simp
    · rw [hpaths]
      refine List.nodup_append.2 ⟨hw.nodup, hu.nodup_paths hp hl, ?_⟩
      rintro x hx y hy rfl
      obtain ⟨c, hc, rfl⟩ := List.mem_map.1 hy
      obtain ⟨hne, -, habove, -⟩ := hu.childPath hp hc hends
      have hmem := hw.above c.path hx hne
      rw [habove] at hmem
      exact hnew hmem

end Worklist

section
variable {l : Library} {name : String} {overrides : Overrides} {d : Hierarchy}

theorem apart_of_elaborate (h : elaborate l name overrides = .ok d) (hl : l.DistinctLabels) :
    Worklist.Apart l ⟨d.instances, []⟩ :=
  Worklist.holds_of_elaborate (fun _ hp hpath _ => .start hp hpath) (fun _ _ hw => hw.step hl) h

theorem paths_built (is : List Instance) : (Worklist.mk is []).paths = is.map (·.path) := by
  simp [Worklist.paths, Worklist.entries, Function.comp_def]

/-- A process stands in the instance or in rounds of its loops. -/
theorem Unrolling.Of.scope_of_mem {u : Unrolling} {p : Pending} {i : Instance} {children : List Pending}
    (h : u.Of l p i children) {r : Process} (hr : r ∈ i.processes.toList) : ∃ gs ks x,
      Enclosed (p.architecture.body.map .stmt) gs x ∧ r.scope = p.path ++ roundSegments gs ks := by
  rw [h.processes] at hr
  obtain ⟨⟨site, item⟩, hm, hitem⟩ := List.mem_filterMap.1 hr
  obtain ⟨q, x, hq, -, hdescribes⟩ := h.answers.sound _ hm
  cases hdescribes with
  | signal _ => cases hitem
  | child _ => cases hitem
  | process _ hbuild =>
    obtain rfl := Option.some.inj hitem
    obtain ⟨gs, ks, hgs, -, -, hpath⟩ := hq.path
    refine ⟨gs, ks, _, hgs, ?_⟩
    obtain ⟨_, -, hbuild⟩ := Result.bind_eq_ok.1 hbuild
    obtain ⟨_, -, hbuild⟩ := Result.bind_eq_ok.1 hbuild
    cases hbuild
    exact hpath

end

end HdlLint.Design

namespace HdlLint
open Design (Path Instance Process Hierarchy Overrides PlainLabel elaborate)

/-- What is found process by process, each time at the process, is at one of the processes. -/
theorem View.exists_process {top : String} {cap : Nat} {i : Instance} {f : Finding}
    {found : Process × Flow.Summary → List Finding}
    (hfound : ∀ r summary, ∀ f ∈ found (r, summary), f.path = r.scope)
    (h : f ∈ (View.ofInstance top cap i).processes.flatMap found) :
    ∃ r ∈ i.processes.toList, f.path = r.scope := by
  obtain ⟨x, hx, hf⟩ := List.mem_flatMap.1 h
  obtain ⟨r, hr, rfl⟩ := List.mem_map.1 hx
  exact ⟨r, hr, hfound _ _ f hf⟩

/-- A finding is about the instance or about one of its processes. -/
theorem View.path_of_mem_findings {top : String} {cap : Nat} {i : Instance} {rule : Rule} {f : Finding}
    (h : f ∈ (View.ofInstance top cap i).findings rule) :
    f.path = i.path ∨ ∃ r ∈ i.processes.toList, f.path = r.scope := by
  cases rule with
  | sensitivityIncomplete =>
    refine .inr (exists_process (fun r summary f hf => ?_) h)
    simp only [sensitivityOf] at hf
    split_ifs at hf
    · cases hf
    · obtain ⟨use, -, rfl⟩ := List.mem_map.1 hf
      rfl
  | latchInferred =>
    refine .inr (exists_process (fun r summary f hf => ?_) h)
    simp only [latchesOf] at hf
    split_ifs at hf
    · cases hf
    · obtain ⟨id, -, rfl⟩ := List.mem_map.1 hf
      rfl
  | clockedProcessImpure =>
    refine .inr (exists_process (fun r summary f hf => ?_) h)
    simp only [impuritiesOf] at hf
    cases hguard : summary.guard with
    | none =>
      rw [hguard] at hf
      cases hf
    | some guard =>
      rw [hguard] at hf
      obtain ⟨write, -, rfl⟩ := List.mem_map.1 hf
      rfl
  | registerDualDriven =>
    obtain ⟨_, _, rfl⟩ := exists_conflict_of_mem h
    exact .inl rfl

theorem path_of_mem_findingsIn {o : Options} {d : Hierarchy} {i : Instance} {f : Finding}
    (h : f ∈ o.findingsIn d i) : f.path = i.path ∨ ∃ r ∈ i.processes.toList, f.path = r.scope := by
  obtain ⟨x, hx, hf⟩ := List.mem_flatMap.1 h
  obtain ⟨⟨rule, severity⟩, -, rfl⟩ := List.mem_map.1 hx
  obtain ⟨g, hg, rfl⟩ := List.mem_map.1 hf
  have hpath := View.path_of_mem_findings hg
  exact hpath

section
variable {l : Syntax.Library} {name : String} {overrides : Overrides} {d : Hierarchy}

/-- Where something is found, the path is that of the instance and of rounds of its loops. -/
theorem owner_of_mem_findingsIn (h : elaborate l name overrides = .ok d) (hl : l.DistinctLabels)
    {o : Options} {i : Instance} {f : Finding} (hi : i ∈ d.instances) (hf : f ∈ o.findingsIn d i) :
    Path.owner f.path = i.path ∧ ∀ s ∈ f.path, l.HasLabel s.label := by
  have hapart := Design.apart_of_elaborate h hl
  have hmem : i.path ∈ (Design.Worklist.mk d.instances []).paths := by
    rw [Design.paths_built]
    exact List.mem_map_of_mem hi
  have hends := hapart.ends _ hmem
  have hlabels := hapart.labels _ hmem
  rcases path_of_mem_findingsIn hf with hpath | ⟨r, hr, hpath⟩
  · rw [hpath]
    exact ⟨hends, hlabels⟩
  · obtain ⟨m, hm⟩ := List.getElem?_of_mem hi
    obtain ⟨p, u, children, -, hp, -, hpi, hu, -⟩ := (Design.arena_of_elaborate h).listed m i hm
    obtain ⟨gs, ks, x, hgs, hscope⟩ := hu.scope_of_mem hr
    rw [hpath, hscope, hpi]
    refine ⟨hends.owner_append Design.isRound_of_mem_roundSegments, List.forall_mem_append.2 ⟨hlabels, ?_⟩⟩
    exact Design.hasLabel_of_mem_roundSegments hp hgs

/-- If no two instances or loops of one block have the same label, no two instances of a hierarchy have
the same path. If the labels are plain, this also holds of the texts of the paths, and the text of a path
at which something is found tells the instance in which it is. -/
theorem elaborate_paths (h : elaborate l name overrides = .ok d) (hl : l.DistinctLabels) :
    (d.instances.map (·.path)).Nodup ∧
    (∀ p q : Path, p.Plain → q.Plain → p.text = q.text → p = q) ∧
    ((∀ label, l.HasLabel label → PlainLabel label) →
      (d.instances.map (·.path.text)).Nodup ∧
      ∀ (o : Options) (m n : Nat) i j f f', d.instances[m]? = some i → d.instances[n]? = some j →
        f ∈ o.findingsIn d i → f' ∈ o.findingsIn d j → f.path.text = f'.path.text → m = n) := by
  have hapart := Design.apart_of_elaborate h hl
  have hnodup := hapart.nodup
  rw [Design.paths_built] at hnodup
  refine ⟨hnodup, fun p q => Path.text_inj, fun hplain => ⟨?_, ?_⟩⟩
  · have htexts : ((d.instances.map (·.path)).map Path.text).Nodup := by
      refine hnodup.map_on fun x hx y hy => ?_
      rw [← Design.paths_built] at hx hy
      exact Path.text_inj (fun s hs => hplain _ (hapart.labels x hx s hs))
        fun s hs => hplain _ (hapart.labels y hy s hs)
    rwa [List.map_map] at htexts
  · intro o m n i j f f' hi hj hf hf' htext
    obtain ⟨howner, hlabels⟩ := owner_of_mem_findingsIn h hl (List.mem_of_getElem? hi) hf
    obtain ⟨howner', hlabels'⟩ := owner_of_mem_findingsIn h hl (List.mem_of_getElem? hj) hf'
    have hpath := Path.text_inj (fun s hs => hplain _ (hlabels s hs))
      (fun s hs => hplain _ (hlabels' s hs)) htext
    have heq : i.path = j.path := by rw [← howner, ← howner', hpath]
    have hm : (d.instances.map (·.path))[m]? = some i.path := by rw [List.getElem?_map, hi]; rfl
    have hn : (d.instances.map (·.path))[n]? = some i.path := by rw [List.getElem?_map, hj, heq]; rfl
    exact (List.getElem?_inj (List.getElem?_eq_some_iff.1 hm).1 hnodup).1 (hm.trans hn.symm)

theorem elaborate_paths_inverterPair : ∃ d, elaborate Design.inverterPair "Pair" [] = .ok d ∧
    d.instances.map (·.path.text) = ["", "halves(0).half", "halves(1).half"] ∧
    (d.instances.map (·.path)).Nodup ∧
    ∀ (o : Options) (m n : Nat) i j f f', d.instances[m]? = some i → d.instances[n]? = some j →
      f ∈ o.findingsIn d i → f' ∈ o.findingsIn d j → f.path.text = f'.path.text → m = n := by
  have htexts : (elaborate Design.inverterPair "Pair" []).toOption.map
      (fun d => d.instances.map (·.path.text)) =
        some ["", "halves(0).half", "halves(1).half"] := by decide +kernel
  -- The blocks are the two bodies and the body of the loop.
  have hblocks : ∀ a ∈ Design.inverterPair.architectures, ∀ b, Syntax.Block a.body b →
      b.filterMap Syntax.Concurrent.label? ∈ [[], ["halves"], ["half"]] := by
    intro a ha b hb
    rcases List.mem_cons.1 ha with rfl | ha
    · cases hb with
      | whole => decide
      | body hg => cases hg with | tail _ hg => cases hg
    · obtain rfl := List.mem_singleton.1 ha
      cases hb with
      | whole => decide
      | body hg hb =>
        cases hg with
        | tail _ hg => cases hg
        | head =>
          cases hb with
          | whole => decide
          | body hg => cases hg with | tail _ hg => cases hg with | tail _ hg => cases hg
  have hl : Design.inverterPair.DistinctLabels := by
    intro a ha b hb
    have hdistinct : ∀ labels ∈ [[], ["halves"], ["half"]], labels.Nodup := by decide
    exact hdistinct _ (hblocks a ha b hb)
  have hplain : ∀ label, Design.inverterPair.HasLabel label → PlainLabel label := by
    rintro label ⟨a, ha, b, hb, hlabel⟩
    have hwords : ∀ labels ∈ [[], ["halves"], ["half"]], ∀ label ∈ labels,
        label ≠ "" ∧ label.toList.all Ascii.isWordRest = true := by decide
    obtain ⟨hne, hword⟩ := hwords _ (hblocks a ha b hb) label hlabel
    exact Design.plainLabel_of_word hne (List.all_eq_true.1 hword)
  cases h : elaborate Design.inverterPair "Pair" [] with
  | error e => rw [h] at htexts; cases htexts
  | ok d =>
    rw [h] at htexts
    obtain ⟨hnodup, -, hfindings⟩ := elaborate_paths h hl
    exact ⟨d, rfl, Option.some.inj htexts, hnodup, (hfindings hplain).2⟩

end

end HdlLint
