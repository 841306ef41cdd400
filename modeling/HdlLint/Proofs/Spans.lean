import HdlLint.Design.Unit

/-!
# The spans of a syntax tree

`Within P` says of a tree that every span in it has `P`. It follows the shape of the tree, so a rule
that builds a node shows `P` for the span of that node only, and a function that walks over the tree
finds `P` at each node it comes to.
-/

namespace HdlLint.Syntax
variable (P : Span → Prop)

def Ident.Within (i : Ident) : Prop := P i.span

mutual

def Expr.Within : Expr → Prop
  | .int _ s | .bool _ s | .char _ s | .str _ s => P s
  | .name i => i.Within P
  | .call f args s => f.Within P ∧ ExprsWithin args ∧ P s
  | .slice b l _ r s => b.Within P ∧ l.Within ∧ r.Within ∧ P s
  | .attribute b _ s => b.Within P ∧ P s
  | .unary _ e s => e.Within ∧ P s
  | .binary _ l r s => l.Within ∧ r.Within ∧ P s
  | .aggregate vs s => ExprsWithin vs ∧ P s

def ExprsWithin : List Expr → Prop
  | [] => True
  | e :: es => e.Within ∧ ExprsWithin es

end

def Range.Within (r : Range) : Prop := r.left.Within P ∧ r.right.Within P

def Selector.Within : Selector → Prop
  | .index e => e.Within P
  | .slice r => r.Within P

structure Target.Within (t : Target) : Prop where
  ident : t.ident.Within P
  selector : ∀ s ∈ t.selector, s.Within P

mutual

def Stmt.Within : Stmt → Prop
  | .assign t v s => t.Within P ∧ v.Within P ∧ P s
  | .ifs branches otherwise s => BranchesWithin branches ∧ OptionWithin otherwise ∧ P s
  | .case subject arms others s => subject.Within P ∧ ArmsWithin arms ∧ OptionWithin others ∧ P s
  | .null s => P s

def BlockWithin : List Stmt → Prop
  | [] => True
  | s :: ss => s.Within ∧ BlockWithin ss

def OptionWithin : Option (List Stmt) → Prop
  | none => True
  | some b => BlockWithin b

def BranchesWithin : List Branch → Prop
  | [] => True
  | ⟨condition, body⟩ :: bs => condition.Within P ∧ BlockWithin body ∧ BranchesWithin bs

def ArmsWithin : List Arm → Prop
  | [] => True
  | ⟨choices, body, s⟩ :: as => ExprsWithin P choices ∧ BlockWithin body ∧ P s ∧ ArmsWithin as

end

structure Subtype.Within (t : Subtype) : Prop where
  range : ∀ r ∈ t.range, r.Within P
  span : P t.span

structure Generic.Within (g : Generic) : Prop where
  default : ∀ e ∈ g.default, e.Within P
  span : P g.span

structure Port.Within (p : Port) : Prop where
  subtype : p.subtype.Within P
  span : P p.span

structure Entity.Within (e : Entity) : Prop where
  generics : ∀ g ∈ e.generics, g.Within P
  ports : ∀ p ∈ e.ports, p.Within P
  span : P e.span

def Decl.Within : Decl → Prop
  | .signal _ t init s => t.Within P ∧ (∀ e ∈ init, e.Within P) ∧ P s
  | .constant _ t v s => t.Within P ∧ v.Within P ∧ P s
  | .enumeration _ _ s => P s

def Sensitivity.Within : Sensitivity → Prop
  | .all => True
  | .list is => ∀ i ∈ is, i.Within P

structure Process.Within (p : Process) : Prop where
  sensitivity : p.sensitivity.Within P
  body : BlockWithin P p.body
  span : P p.span

def Actual.Within : Actual → Prop
  | .expr e => e.Within P
  | .leftOpen => True

structure Association.Within (a : Association) : Prop where
  formal : ∀ i ∈ a.formal, i.Within P
  actual : a.actual.Within P
  span : P a.span

structure Instantiation.Within (i : Instantiation) : Prop where
  genericMap : ∀ a ∈ i.genericMap, a.Within P
  portMap : ∀ a ∈ i.portMap, a.Within P
  span : P i.span

mutual

def Concurrent.Within : Concurrent → Prop
  | .process p => p.Within P
  | .instantiation i => i.Within P
  | .generate ⟨_, _, range, decls, body, s⟩ =>
    range.Within P ∧ (∀ d ∈ decls, d.Within P) ∧ ConcurrentsWithin body ∧ P s

def ConcurrentsWithin : List Concurrent → Prop
  | [] => True
  | c :: cs => c.Within ∧ ConcurrentsWithin cs

end

structure Architecture.Within (a : Architecture) : Prop where
  decls : ∀ d ∈ a.decls, d.Within P
  body : ConcurrentsWithin P a.body
  span : P a.span

structure Library.Within (l : Library) : Prop where
  entities : ∀ e ∈ l.entities, e.Within P
  architectures : ∀ a ∈ l.architectures, a.Within P

/-! ### Nodes -/

variable {P}

theorem Expr.Within.span : ∀ {e : Expr}, e.Within P → P e.span
  | .int .., h | .bool .., h | .char .., h | .str .., h | .name _, h => h
  | .attribute .., h | .unary .., h | .aggregate .., h => h.2
  | .call .., h | .binary .., h => h.2.2
  | .slice .., h => h.2.2.2

theorem exprsWithin_iff {es : List Expr} : ExprsWithin P es ↔ ∀ e ∈ es, e.Within P := by
  induction es with
  | nil => simp [ExprsWithin]
  | cons e es ih => simp [ExprsWithin, ih]

mutual

theorem Concurrent.Within.instantiations :
    ∀ {c : Concurrent}, c.Within P → ∀ i ∈ c.instantiations, i.Within P
  | .process _, _, _, hi => nomatch hi
  | .instantiation _, h, _, hi => List.mem_singleton.1 hi ▸ h
  | .generate ⟨_, _, _, _, _, _⟩, h, _, hi => ConcurrentsWithin.instantiations h.2.2.1 _ hi

theorem ConcurrentsWithin.instantiations :
    ∀ {cs : List Concurrent}, ConcurrentsWithin P cs → ∀ i ∈ Syntax.instantiations cs, i.Within P
  | _ :: _, h, _, hi => (List.mem_append.1 hi).elim (Concurrent.Within.instantiations h.1 _)
    (ConcurrentsWithin.instantiations h.2 _)

end

theorem Library.Within.append {a b : Library} (ha : a.Within P) (hb : b.Within P) :
    (a.append b).Within P :=
  ⟨List.forall_mem_append.2 ⟨ha.entities, hb.entities⟩,
    List.forall_mem_append.2 ⟨ha.architectures, hb.architectures⟩⟩

/-! ### Trees about whose spans nothing is said -/

mutual

theorem Expr.within_true : ∀ e : Expr, e.Within fun _ => True
  | .int .. | .bool .. | .char .. | .str .. | .name _ => trivial
  | .call _ args _ => ⟨trivial, exprsWithin_true args, trivial⟩
  | .slice _ l _ r _ => ⟨trivial, l.within_true, r.within_true, trivial⟩
  | .attribute .. => ⟨trivial, trivial⟩
  | .unary _ e _ => ⟨e.within_true, trivial⟩
  | .binary _ l r _ => ⟨l.within_true, r.within_true, trivial⟩
  | .aggregate vs _ => ⟨exprsWithin_true vs, trivial⟩

theorem exprsWithin_true : ∀ es : List Expr, ExprsWithin (fun _ => True) es
  | [] => trivial
  | e :: es => ⟨e.within_true, exprsWithin_true es⟩

end

theorem Range.within_true (r : Range) : r.Within fun _ => True :=
  ⟨r.left.within_true, r.right.within_true⟩

theorem Selector.within_true : ∀ s : Selector, s.Within fun _ => True
  | .index e => e.within_true
  | .slice r => r.within_true

theorem Target.within_true (t : Target) : t.Within fun _ => True :=
  ⟨trivial, fun s _ => s.within_true⟩

mutual

theorem Stmt.within_true : ∀ s : Stmt, s.Within fun _ => True
  | .assign t v _ => ⟨t.within_true, v.within_true, trivial⟩
  | .ifs branches otherwise _ => ⟨branchesWithin_true branches, optionWithin_true otherwise, trivial⟩
  | .case subject arms others _ =>
    ⟨subject.within_true, armsWithin_true arms, optionWithin_true others, trivial⟩
  | .null _ => trivial

theorem blockWithin_true : ∀ b : List Stmt, BlockWithin (fun _ => True) b
  | [] => trivial
  | s :: ss => ⟨s.within_true, blockWithin_true ss⟩

theorem optionWithin_true : ∀ b : Option (List Stmt), OptionWithin (fun _ => True) b
  | none => trivial
  | some b => blockWithin_true b

theorem branchesWithin_true : ∀ bs : List Branch, BranchesWithin (fun _ => True) bs
  | [] => trivial
  | ⟨condition, body⟩ :: bs => ⟨condition.within_true, blockWithin_true body, branchesWithin_true bs⟩

theorem armsWithin_true : ∀ as : List Arm, ArmsWithin (fun _ => True) as
  | [] => trivial
  | ⟨choices, body, _⟩ :: as =>
    ⟨exprsWithin_true choices, blockWithin_true body, trivial, armsWithin_true as⟩

end

theorem Subtype.within_true (t : Subtype) : t.Within fun _ => True :=
  ⟨fun r _ => r.within_true, trivial⟩

theorem Entity.within_true (e : Entity) : e.Within fun _ => True :=
  ⟨fun _ _ => ⟨fun d _ => d.within_true, trivial⟩, fun p _ => ⟨p.subtype.within_true, trivial⟩, trivial⟩

theorem Decl.within_true : ∀ d : Decl, d.Within fun _ => True
  | .signal _ t _ _ => ⟨t.within_true, fun e _ => e.within_true, trivial⟩
  | .constant _ t v _ => ⟨t.within_true, v.within_true, trivial⟩
  | .enumeration .. => trivial

theorem Process.within_true (p : Process) : p.Within fun _ => True := by
  refine ⟨?_, blockWithin_true p.body, trivial⟩
  cases p.sensitivity with
  | all => trivial
  | list is => exact fun _ _ => trivial

theorem Association.within_true (a : Association) : a.Within fun _ => True := by
  refine ⟨fun _ _ => trivial, ?_, trivial⟩
  cases a.actual with
  | expr e => exact e.within_true
  | leftOpen => trivial

theorem Instantiation.within_true (i : Instantiation) : i.Within fun _ => True :=
  ⟨fun a _ => a.within_true, fun a _ => a.within_true, trivial⟩

mutual

theorem Concurrent.within_true : ∀ c : Concurrent, c.Within fun _ => True
  | .process p => p.within_true
  | .instantiation i => i.within_true
  | .generate ⟨_, _, range, _, body, _⟩ =>
    ⟨range.within_true, fun d _ => d.within_true, concurrentsWithin_true body, trivial⟩

theorem concurrentsWithin_true : ∀ cs : List Concurrent, ConcurrentsWithin (fun _ => True) cs
  | [] => trivial
  | c :: cs => ⟨c.within_true, concurrentsWithin_true cs⟩

end

theorem Architecture.within_true (a : Architecture) : a.Within fun _ => True :=
  ⟨fun d _ => d.within_true, concurrentsWithin_true a.body, trivial⟩

theorem Library.within_true (l : Library) : l.Within fun _ => True :=
  ⟨fun e _ => e.within_true, fun a _ => a.within_true⟩

end HdlLint.Syntax
