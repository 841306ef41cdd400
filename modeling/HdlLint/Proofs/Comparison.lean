import HdlLint.Report

/-!
# Comparing paths and entries

The comparisons by which reports are put in order are total preorders, and that of paths tells any two
paths apart. Each of them is a lexicographic one, so it has the laws of its parts.
-/

namespace HdlLint

namespace Design

namespace Segment

/-- Instances before generate loops. -/
def kind : Segment → Nat
  | .inst _ => 0
  | .generate _ _ => 1

def label : Segment → String
  | .inst label => label
  | .generate label _ => label

/-- The index of a round; zero for an instance, which has none. -/
def index : Segment → Int
  | .inst _ => 0
  | .generate _ index => index

theorem compare_eq_compareLex :
    Segment.compare = compareLex (compareOn kind) (compareLex (compareOn label) (compareOn index)) := by
  funext a b
  cases a with
  | inst l =>
    cases b with
    | inst l' => simp [Segment.compare, compareLex, compareOn, kind, label, index]
    | generate => rfl
  | generate l i =>
    cases b with
    | inst => rfl
    | generate => simp [Segment.compare, compareLex, compareOn, kind, label, index]

instance : Std.TransCmp Segment.compare := by
  rw [compare_eq_compareLex]
  infer_instance

instance : Std.LawfulEqCmp Segment.compare where
  compare_self {a} := by
    cases a <;> simp [Segment.compare]
  eq_of_compare {a b} h := by
    cases a <;> cases b <;> simp_all [Segment.compare, Ordering.then_eq_eq]

end Segment

namespace Path

theorem compare_eq_compareLex : Path.compare = List.compareLex Segment.compare := by
  funext p q
  induction p generalizing q with
  | nil => cases q <;> rfl
  | cons a p ih =>
    cases q with
    | nil => rfl
    | cons b q => rw [Path.compare, List.compareLex_cons_cons, ih]

instance : Std.TransCmp Path.compare := by
  rw [compare_eq_compareLex]
  infer_instance

instance : Std.LawfulEqCmp Path.compare := by
  rw [compare_eq_compareLex]
  infer_instance

end Path

end Design

theorem Location.compare_eq_compareLex : Location.compare =
    compareLex (compareOn Location.file) (compareLex (compareOn Location.line) (compareOn Location.column)) :=
  rfl

instance : Std.TransCmp Location.compare := by
  rw [Location.compare_eq_compareLex]
  infer_instance

theorem transCmp_on {α β : Type} (cmp : β → β → Ordering) [Std.TransCmp cmp] (f : α → β) :
    Std.TransCmp fun a b => cmp (f a) (f b) where
  eq_swap := Std.OrientedCmp.eq_swap
  isLE_trans := Std.TransCmp.isLE_trans

theorem Entry.compare_eq_compareLex : Entry.compare =
    compareLex (compareOn (·.finding.top)) (compareLex (fun a b => a.path.compare b.path)
      (compareLex (fun a b => a.location.compare b.location) (compareOn (·.finding.rule.rank)))) :=
  rfl

instance : Std.TransCmp Entry.compare := by
  have := transCmp_on Design.Path.compare Entry.path
  have := transCmp_on Location.compare Entry.location
  rw [Entry.compare_eq_compareLex]
  infer_instance

/-- Of two things that are compared one does not come after the other. -/
theorem isLE_or_isLE {α : Type} {cmp : α → α → Ordering} [Std.OrientedCmp cmp] (a b : α) :
    ((cmp a b).isLE || (cmp b a).isLE) = true := by
  have hswap : cmp a b = (cmp b a).swap := Std.OrientedCmp.eq_swap
  rw [hswap]
  cases cmp b a <;> rfl

end HdlLint
