import Mathlib.Order.Compare
import RouterShift.Path

/-! The order of paths. Paths are compared as lists of components, components by their kind and then
    by their name, so the order is a linear one of what paths name: it finds two of them equal just
    when they are spellings of one path (`order_eq_iff`). -/

namespace RouterShift

namespace Component

/-- The name of a component; the others have none. -/
def nameOf : Component → String
  | .name s => s
  | _ => ""

/-- Kinds come first, names decide between names. -/
theorem order_eq_compareLex : order = compareLex (compareOn rank) (compareOn nameOf) := by
  funext a b
  cases a <;> cases b <;> simp [order, compareLex, compareOn, rank, nameOf] <;> rfl

instance : Std.TransCmp order := by
  rw [order_eq_compareLex]
  infer_instance

instance : Std.LawfulEqCmp order where
  eq_of_compare {a b} h := by
    cases a <;> cases b <;> simp_all [order, rank]

end Component

namespace Path

theorem orderComponents_eq_compareLex : orderComponents = List.compareLex Component.order := by
  funext as bs
  induction as generalizing bs with
  | nil => cases bs <;> rfl
  | cons a as ih =>
    cases bs with
    | nil => rfl
    | cons b bs =>
      rw [orderComponents, List.compareLex_cons_cons, ih]

instance : Std.TransCmp orderComponents := by
  rw [orderComponents_eq_compareLex]
  infer_instance

instance : Std.LawfulEqCmp orderComponents := by
  rw [orderComponents_eq_compareLex]
  infer_instance

instance : Std.TransCmp order where
  eq_swap {p q} := by
    show orderComponents p.components q.components = _
    exact Std.OrientedCmp.eq_swap
  isLE_trans {p q r} hpq hqr := by
    show (orderComponents p.components r.components).isLE
    exact Std.TransCmp.isLE_trans hpq hqr

variable {p q r : Path}

theorem sameAs_iff : p.sameAs q ↔ p.components = q.components := beq_iff_eq

theorem sameAs_refl (p : Path) : p.sameAs p := sameAs_iff.2 rfl

theorem sameAs_comm : p.sameAs q = q.sameAs p := BEq.comm

/-- A path is the same as another one in every spelling of either. -/
theorem sameAs_congr (h : p.sameAs q) (r : Path) : p.sameAs r = q.sameAs r := by
  rw [sameAs, sameAs, sameAs_iff.1 h]

theorem order_eq_iff : p.order q = .eq ↔ p.sameAs q := by
  rw [order, sameAs_iff]
  exact Std.LawfulEqCmp.compare_eq_iff_eq

theorem sameAs_of_order {o : Ordering} (h : p.order q = o) (ho : o ≠ .eq) : p.sameAs q = false := by
  rw [← Bool.not_eq_true, ← order_eq_iff, h]
  exact ho

end Path
end RouterShift
