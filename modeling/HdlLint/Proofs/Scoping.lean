import Mathlib.Data.List.Basic
import HdlLint.Proofs.Building
import HdlLint.Proofs.Resolution

/-!
# The signals of an instance

While an instance is built its arena only grows, and every name in sight stands for a signal that is
in the arena and was declared around the place of the name (`Scope.Over`). Each round of a generate
loop starts from the scope around the loop, at a longer path, so this holds again for every round.
What is built in such a scope names visible signals only (`Process.Scoped`), and so do the ports of
the instances that are asked for. `Pending.build_spec` puts this together for one instance.
-/

namespace HdlLint.Design
open Syntax (Library)

/-! ### Arenas -/

/-- The signal is in the arena and was declared around `path`. -/
def Visible (signals : Array Signal) (path : Path) (id : SignalId) : Prop :=
  ∃ s, signals[id]? = some s ∧ s.scope <+: path

theorem Visible.lt_size {signals : Array Signal} {path : Path} {id : SignalId}
    (h : Visible signals path id) : id < signals.size := by
  obtain ⟨s, hs, -⟩ := h
  exact (Array.getElem?_eq_some_iff.1 hs).1

theorem Visible.mono {old new : Array Signal} {path path' : Path} {id : SignalId}
    (harena : old.toList <+: new.toList) (hpath : path <+: path') (h : Visible old path id) :
    Visible new path' id := by
  obtain ⟨s, hs, hscope⟩ := h
  obtain ⟨more, hmore⟩ := harena
  refine ⟨s, ?_, hscope.trans hpath⟩
  rw [← Array.getElem?_toList] at hs ⊢
  rw [← hmore, List.getElem?_append_left (List.getElem?_eq_some_iff.1 hs).1, hs]

/-- The later arena holds the signals of the earlier one, under the same numbers, and internal ones
besides. -/
def Grows (old new : Array Signal) : Prop :=
  ∃ more : List Signal, new.toList = old.toList ++ more ∧ ∀ s ∈ more, s.kind = .internal

namespace Grows
variable {a b c : Array Signal}

theorem refl (a : Array Signal) : Grows a a := ⟨[], by simp, by simp⟩

theorem trans (hab : Grows a b) (hbc : Grows b c) : Grows a c := by
  obtain ⟨more, hb, hmore⟩ := hab
  obtain ⟨more', hc, hmore'⟩ := hbc
  refine ⟨more ++ more', by rw [hc, hb, List.append_assoc], fun s hs => ?_⟩
  rcases List.mem_append.1 hs with hs | hs
  exacts [hmore s hs, hmore' s hs]

theorem push {s : Signal} (hs : s.kind = .internal) : Grows a (a.push s) :=
  ⟨[s], Array.toList_push, by simpa using hs⟩

theorem isPrefix (h : Grows a b) : a.toList <+: b.toList := by
  obtain ⟨more, hb, -⟩ := h
  exact ⟨more, hb.symm⟩

theorem size_le (h : Grows a b) : a.size ≤ b.size := by
  simpa using h.isPrefix.length_le

end Grows

/-! ### Scopes -/

namespace Scope
variable {scope : Scope} {signals : Array Signal} {path : Path} {id : SignalId} {name : String}

/-- Every signal in sight at `path` is visible there. -/
def Over (scope : Scope) (signals : Array Signal) (path : Path) : Prop :=
  ∀ id, scope.Names id → Visible signals path id

theorem names_bind {b : Binding} (h : (scope.bind name b).Names id) :
    b = .signal id ∨ scope.Names id := by
  obtain ⟨n, hn⟩ := h
  rw [find?_bind] at hn
  split at hn
  · exact .inl (Option.some.inj hn)
  · exact .inr ⟨n, hn⟩

theorem not_names_empty : ¬ empty.Names id := by
  rintro ⟨n, hn⟩
  cases hn

theorem names_bindLiterals {literals : List String} (h : (bindLiterals scope literals).Names id) :
    scope.Names id := by
  induction literals generalizing scope with
  | nil => exact h
  | cons x xs ih => exact (names_bind (ih h)).resolve_left (by simp)

theorem Over.mono {new : Array Signal} {path' : Path} (h : scope.Over signals path)
    (harena : signals.toList <+: new.toList) (hpath : path <+: path') : scope.Over new path' :=
  fun id hid => (h id hid).mono harena hpath

/-- A name for something other than a signal brings none into sight. -/
theorem Over.bind_other {b : Binding} (h : scope.Over signals path) (hb : ∀ id, b ≠ .signal id) :
    (scope.bind name b).Over signals path :=
  fun id hid => h id ((names_bind hid).resolve_left (hb id))

/-- A new signal that is declared at `path` comes into sight there. -/
theorem Over.bind_signal {s : Signal} (h : scope.Over signals path) (hs : s.scope = path) :
    (scope.bind name (.signal signals.size)).Over (signals.push s) path := by
  intro id hid
  rcases names_bind hid with heq | hid
  · obtain rfl := Binding.signal.inj heq
    exact ⟨s, by simp, hs ▸ List.prefix_refl s.scope⟩
  · exact (h id hid).mono (by simp) (List.prefix_refl path)

end Scope

/-! ### Declarations -/

theorem bindGenerics_over {p : Pending} {scope scope' : Scope} {gs : List Syntax.Generic}
    {given : List (Option (Value × Span))} {values : List (String × Value)} {signals : Array Signal}
    {path : Path} (h : bindGenerics p scope gs given = .ok (values, scope'))
    (hscope : scope.Over signals path) : scope'.Over signals path := by
  induction gs generalizing scope scope' given values with
  | nil => cases h; exact hscope
  | cons g gs ih =>
    obtain ⟨⟨v, span⟩, -, h⟩ := Result.bind_eq_ok.1 h
    dsimp only at h
    split_ifs at h
    obtain ⟨⟨vs, s⟩, hrest, h⟩ := Result.bind_eq_ok.1 h
    cases h
    exact ih hrest (hscope.bind_other (by simp))

/-- The ports are declared in their order, behind what is there. -/
theorem bindPorts_spec {path : Path} {scope scope' : Scope} {signals signals' : Array Signal}
    {ps : List Syntax.Port} (h : bindPorts path scope signals ps = .ok (scope', signals'))
    (hscope : scope.Over signals path) :
    scope'.Over signals' path ∧ ∃ ports : List Signal, signals'.toList = signals.toList ++ ports ∧
      ports.map (fun s => (s.name, s.kind)) = ps.map fun p => (p.name, .port p.mode) := by
  induction ps generalizing scope signals with
  | nil => cases h; exact ⟨hscope, [], by simp, rfl⟩
  | cons p ps ih =>
    obtain ⟨w, -, h⟩ := Result.bind_eq_ok.1 h
    obtain ⟨hover, ports, hports, hmap⟩ := ih h (hscope.bind_signal rfl)
    refine ⟨hover, ⟨p.name, .port p.mode, path, w, p.span⟩ :: ports, ?_, ?_⟩
    · rw [hports, Array.toList_push, List.append_assoc, List.singleton_append]
    · rw [List.map_cons, List.map_cons, hmap]

theorem bindDecls_spec {path : Path} {scope scope' : Scope} {signals signals' : Array Signal}
    {ds : List Syntax.Decl} (h : bindDecls path scope signals ds = .ok (scope', signals'))
    (hscope : scope.Over signals path) : scope'.Over signals' path ∧ Grows signals signals' := by
  induction ds generalizing scope signals with
  | nil => cases h; exact ⟨hscope, .refl _⟩
  | cons d ds ih =>
    cases d with
    | enumeration name literals span =>
      exact ih h fun id hid => hscope.bind_other (by simp) id (Scope.names_bindLiterals hid)
    | constant name type value span =>
      obtain ⟨v, -, h⟩ := Result.bind_eq_ok.1 h
      exact ih h (hscope.bind_other (by simp))
    | signal name type init span =>
      obtain ⟨w, -, h⟩ := Result.bind_eq_ok.1 h
      obtain ⟨hover, hgrows⟩ := ih h (hscope.bind_signal rfl)
      exact ⟨hover, (Grows.push rfl).trans hgrows⟩

/-! ### Processes -/

/-- Every signal that occurs in the process is visible where the process stands. -/
structure Process.Scoped (signals : Array Signal) (p : Process) : Prop where
  sensitivity : ∀ listed, p.sensitivity = .list listed → ∀ id span, (id, span) ∈ listed →
    Visible signals p.scope id
  assigns : ∀ id, Assigns p.body id → Visible signals p.scope id
  reads : ∀ id, Reads p.body id → Visible signals p.scope id

theorem Process.Scoped.mono {old new : Array Signal} {p : Process} (h : p.Scoped old)
    (harena : old.toList <+: new.toList) : p.Scoped new where
  sensitivity listed hl id span hid :=
    (h.sensitivity listed hl id span hid).mono harena (List.prefix_refl _)
  assigns id hid := (h.assigns id hid).mono harena (List.prefix_refl _)
  reads id hid := (h.reads id hid).mono harena (List.prefix_refl _)

theorem buildProcess_scoped {a : Syntax.Architecture} {scope : Scope} {path : Path} {ordinal : Nat}
    {p : Syntax.Process} {r : Process} {signals : Array Signal}
    (h : buildProcess a scope path ordinal p = .ok r) (hscope : scope.Over signals path) :
    r.Scoped signals := by
  obtain ⟨sensitivity, hs, h⟩ := Result.bind_eq_ok.1 h
  obtain ⟨body, hbody, h⟩ := Result.bind_eq_ok.1 h
  cases h
  refine ⟨?_, fun id hid => hscope id (Scope.names_of_assigns hbody hid),
    fun id hid => hscope id (Scope.names_of_reads hbody hid)⟩
  rintro listed rfl id span hid
  exact hscope id (Scope.names_of_mem_resolveSensitivity hs hid)

/-! ### Connections -/

/-- The signal occurs in what a port is connected to. -/
def PortActual.Mentions (id : SignalId) : PortActual → Prop
  | .signal id' => id' = id
  | .expr value => value.Mentions id
  | .leftOpen => False

theorem mentions_of_portActual {e : Expr} {id : SignalId} (h : (portActual e).Mentions id) :
    e.Mentions id := by
  cases e with
  | signal | index | slice => obtain rfl := h; exact .here rfl
  | _ => exact h

theorem mapPorts_spec {scope : Scope} {e : Syntax.Entity} {position : Nat}
    {as : List Syntax.Association} {given ports : List PortActual}
    (h : mapPorts scope e position as given = .ok ports)
    (hgiven : ∀ a ∈ given, ∀ id, a.Mentions id → scope.Names id) :
    ports.length = given.length ∧ ∀ a ∈ ports, ∀ id, a.Mentions id → scope.Names id := by
  induction as generalizing position given with
  | nil => cases h; exact ⟨rfl, hgiven⟩
  | cons x xs ih =>
    obtain ⟨i, -, h⟩ := Result.bind_eq_ok.1 h
    -- one association changes one connection
    have hset : ∀ new : PortActual, (∀ id, new.Mentions id → scope.Names id) →
        mapPorts scope e (position + 1) xs (given.set i new) = .ok ports →
        ports.length = given.length ∧ ∀ a ∈ ports, ∀ id, a.Mentions id → scope.Names id := by
      intro new hnew hrest
      obtain ⟨hlen, hports⟩ := ih hrest fun a ha => by
        rcases List.mem_or_eq_of_mem_set ha with ha | rfl
        exacts [hgiven a ha, hnew]
      exact ⟨by rw [hlen, List.length_set], hports⟩
    cases hx : x.actual with
    | leftOpen =>
      rw [hx] at h
      exact hset .leftOpen (fun id hid => False.elim hid) h
    | expr value =>
      rw [hx] at h
      obtain ⟨r, hr, h⟩ := Result.bind_eq_ok.1 h
      exact hset _ (fun id hid => Scope.names_of_mentions hr (mentions_of_portActual hid)) h

/-- Every signal that occurs in the connections is in the arena. -/
def PortsWithin (ports : List PortActual) (signals : Array Signal) : Prop :=
  ∀ a ∈ ports, ∀ id, a.Mentions id → id < signals.size

theorem PortsWithin.mono {ports : List PortActual} {old new : Array Signal}
    (h : PortsWithin ports old) (hgrows : Grows old new) : PortsWithin ports new :=
  fun a ha id hid => Nat.lt_of_lt_of_le (h a ha id hid) hgrows.size_le

/-- The entity is one of the library, and each of its ports has one connection. -/
structure Pending.Fits (l : Library) (p : Pending) : Prop where
  entity : l.entity? p.entity.name = some p.entity
  ports : p.ports.length = p.entity.ports.length

theorem entity?_of_bindUnit {l : Library} {entity : String} {architecture : Option String}
    {span : Span} {e : Syntax.Entity} {a : Syntax.Architecture}
    (h : l.bindUnit entity architecture span = .ok (e, a)) : l.entity? e.name = some e := by
  unfold Library.bindUnit at h
  cases hfind : l.entity? entity with
  | none => rw [hfind] at h; cases h
  | some e' =>
    rw [hfind] at h
    obtain rfl : e' = e := by
      cases architecture with
      | none => dsimp only at h; split at h <;> cases h; rfl
      | some name => dsimp only at h; split at h <;> cases h; rfl
    have hname : e'.name = entity := by
      have := List.find?_some hfind
      simpa using this
    rw [hname, hfind]

theorem instantiate_spec {l : Library} {scope : Scope} {path : Path} {i : Syntax.Instantiation}
    {p : Pending} {signals : Array Signal} (h : instantiate l scope path i = .ok p)
    (hscope : scope.Over signals path) : p.Fits l ∧ PortsWithin p.ports signals := by
  obtain ⟨⟨e, a⟩, hunit, h⟩ := Result.bind_eq_ok.1 h
  obtain ⟨generics, -, h⟩ := Result.bind_eq_ok.1 h
  obtain ⟨ports, hports, h⟩ := Result.bind_eq_ok.1 h
  cases h
  obtain ⟨hlen, hnames⟩ := mapPorts_spec hports fun a ha id hid => by
    obtain ⟨_, -, rfl⟩ := List.mem_map.1 ha
    exact False.elim hid
  refine ⟨⟨entity?_of_bindUnit hunit, ?_⟩, fun a ha id hid => (hscope id (hnames a ha id hid)).lt_size⟩
  rw [hlen]
  exact List.length_map ..

/-! ### Statements -/

/-- What has been built so far names signals of the arena only. -/
structure Progress.Sound (l : Library) (done : Progress) : Prop where
  processes : ∀ p ∈ done.processes, p.Scoped done.signals
  children : ∀ c ∈ done.children, c.Fits l ∧ PortsWithin c.ports done.signals

theorem Progress.Sound.grow {l : Library} {done : Progress} {signals : Array Signal}
    (h : done.Sound l) (hgrows : Grows done.signals signals) :
    Progress.Sound l { done with signals } where
  processes p hp := (h.processes p hp).mono hgrows.isPrefix
  children c hc := ⟨(h.children c hc).1, (h.children c hc).2.mono hgrows⟩

mutual

theorem buildStmt_sound {l : Library} {a : Syntax.Architecture} : ∀ (c : Syntax.Concurrent)
    {scope : Scope} {path : Path} {ordinal : Nat} {done done' : Progress},
    buildStmt l a scope path ordinal done c = .ok done' → scope.Over done.signals path →
      done.Sound l → Grows done.signals done'.signals ∧ done'.Sound l
  | .process p, scope, path, ordinal, done, done', h, hscope, hdone => by
    obtain ⟨r, hr, h⟩ := Result.bind_eq_ok.1 h
    cases h
    refine ⟨.refl _, fun q hq => ?_, hdone.children⟩
    rcases Array.mem_push.1 hq with hq | rfl
    · exact hdone.processes q hq
    · exact buildProcess_scoped hr hscope
  | .instantiation i, scope, path, ordinal, done, done', h, hscope, hdone => by
    obtain ⟨child, hchild, h⟩ := Result.bind_eq_ok.1 h
    cases h
    refine ⟨.refl _, hdone.processes, fun c hc => ?_⟩
    rcases Array.mem_push.1 hc with hc | rfl
    · exact hdone.children c hc
    · exact instantiate_spec hchild hscope
  | .generate ⟨label, var, range, decls, body, _⟩, scope, path, ordinal, done, done', h, hscope,
      hdone => by
    obtain ⟨left, -, h⟩ := Result.bind_eq_ok.1 h
    obtain ⟨right, -, h⟩ := Result.bind_eq_ok.1 h
    rw [foldIndices_eq_foldlM] at h
    refine Result.foldlM_invariant (I := fun d => Grows done.signals d.signals ∧ d.Sound l) ?_ h
      ⟨.refl _, hdone⟩
    -- every round starts from the scope around the loop, in the arena that the rounds before left
    rintro d i d' hround ⟨hgrows, hd⟩
    obtain ⟨⟨inner, signals⟩, hdecls, hround⟩ := Result.bind_eq_ok.1 hround
    have hover : scope.push.Over d.signals (path ++ [.generate label i]) :=
      hscope.mono hgrows.isPrefix (List.prefix_append _ _)
    obtain ⟨hinner, hmore⟩ := bindDecls_spec hdecls (hover.bind_other (by simp))
    obtain ⟨hrest, hd'⟩ := buildStmts_sound body hround hinner (hd.grow hmore)
    exact ⟨hgrows.trans (hmore.trans hrest), hd'⟩

theorem buildStmts_sound {l : Library} {a : Syntax.Architecture} : ∀ (cs : List Syntax.Concurrent)
    {scope : Scope} {path : Path} {ordinal : Nat} {done done' : Progress},
    buildStmts l a scope path ordinal done cs = .ok done' → scope.Over done.signals path →
      done.Sound l → Grows done.signals done'.signals ∧ done'.Sound l
  | [], scope, path, ordinal, done, done', h, hscope, hdone => by
    cases h
    exact ⟨.refl _, hdone⟩
  | c :: cs, scope, path, ordinal, done, done', h, hscope, hdone => by
    obtain ⟨d, hc, h⟩ := Result.bind_eq_ok.1 h
    obtain ⟨hgrows, hd⟩ := buildStmt_sound c hc hscope hdone
    obtain ⟨hrest, hd'⟩ := buildStmts_sound cs h (hscope.mono hgrows.isPrefix (List.prefix_refl _)) hd
    exact ⟨hgrows.trans hrest, hd'⟩

end

/-! ### Instances -/

/-- The ports of the entity are the first signals, in their order, and the others are internal; each
port has one connection; and the processes name visible signals only. -/
structure Instance.WellScoped (e : Syntax.Entity) (i : Instance) : Prop where
  port : ∀ (k : Nat) p, e.ports[k]? = some p →
    ∃ s, i.signals[k]? = some s ∧ s.name = p.name ∧ s.kind = .port p.mode
  internal : ∀ (k : Nat) s, e.ports.length ≤ k → i.signals[k]? = some s → s.kind = .internal
  connected : i.ports.length = e.ports.length
  processes : ∀ p ∈ i.processes, p.Scoped i.signals

/-- What is built from a pending instance. -/
structure Pending.Builds (p : Pending) (i : Instance) : Prop where
  entity : i.entity = p.entity.name
  ports : i.ports = p.ports
  wellScoped : i.WellScoped p.entity

theorem Pending.build_spec {l : Library} {p : Pending} {i : Instance} {children : List Pending}
    (h : p.build l = .ok (i, children)) (hp : p.Fits l) :
    p.Builds i ∧ ∀ c ∈ children, c.Fits l ∧ PortsWithin c.ports i.signals := by
  rw [build_eq] at h
  obtain ⟨⟨generics, scope₁⟩, hgenerics, h⟩ := Result.bind_eq_ok.1 h
  obtain ⟨⟨scope₂, signals₂⟩, hports, h⟩ := Result.bind_eq_ok.1 h
  obtain ⟨⟨scope₃, signals₃⟩, hdecls, h⟩ := Result.bind_eq_ok.1 h
  obtain ⟨done, hdone, h⟩ := Result.bind_eq_ok.1 h
  cases h
  have hover₁ : scope₁.Over #[] p.path :=
    bindGenerics_over hgenerics fun id hid => absurd hid Scope.not_names_empty
  obtain ⟨hover₂, ports, heq, hmap⟩ := bindPorts_spec hports hover₁
  obtain ⟨hover₃, hgrows₃⟩ := bindDecls_spec hdecls hover₂
  obtain ⟨hgrows, hsound⟩ := buildStmts_sound _ hdone hover₃ ⟨by simp, by simp⟩
  -- the arena starts with the ports, and all that it grew by is internal
  obtain ⟨more, hmore, hinternal⟩ := hgrows₃.trans hgrows
  have harena : done.signals.toList = ports ++ more := by rw [hmore, heq]; simp
  have hlen : ports.length = p.entity.ports.length := by simpa using congrArg List.length hmap
  refine ⟨⟨rfl, rfl, ?_, ?_, hp.ports, hsound.processes⟩, fun c hc => hsound.children c (by simpa using hc)⟩
  · intro k q hq
    have hk : k < ports.length := by
      rw [hlen]
      exact (List.getElem?_eq_some_iff.1 hq).1
    have hkth := congrArg (·[k]?) hmap
    simp only [List.getElem?_map, hq, List.getElem?_eq_getElem hk, Option.map_some, Option.some.injEq,
      Prod.mk.injEq] at hkth
    refine ⟨ports.get ⟨k, hk⟩, ?_, hkth⟩
    rw [← Array.getElem?_toList, harena, List.getElem?_append_left hk, List.getElem?_eq_getElem hk]
    rfl
  · intro k s hk hs
    rw [← Array.getElem?_toList, harena, List.getElem?_append_right (by omega)] at hs
    exact hinternal s (List.mem_of_getElem? hs)

end HdlLint.Design
