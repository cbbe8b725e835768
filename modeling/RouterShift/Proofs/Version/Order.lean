import RouterShift.Version.Basic

/-! The order of versions. Every comparison of `Version.Basic` comes to comparing one thing after
    another, what kind it is before its value, so each of them is total and transitive; that of
    texts too, which may be no versions at all. -/

namespace RouterShift
open Std (OrientedCmp ReflCmp TransCmp)

section
variable {α β : Type} {order order' : α → α → Ordering}

/-- What always agrees with a total and transitive comparison is one. -/
theorem transCmp_congr (h : TransCmp order') (heq : ∀ a b, order a b = order' a b) :
    TransCmp order := by
  obtain rfl : order = order' := funext fun a => funext fun b => heq a b
  exact h

/-- Things compared by what they stand for. -/
theorem transCmp_on (f : α → β) {order : β → β → Ordering} (h : TransCmp order) :
    TransCmp fun a b => order (f a) (f b) where
  eq_swap := OrientedCmp.eq_swap
  isLE_trans hab hbc := TransCmp.isLE_trans hab hbc

theorem Version.orderList_eq (as bs : List α) :
    Version.orderList order as bs = as.compareLex order bs := by
  induction as generalizing bs with
  | nil => cases bs <;> rfl
  | cons a as ih =>
    cases bs with
    | nil => rfl
    | cons b bs => rw [Version.orderList, List.compareLex_cons_cons, ih]

instance [TransCmp order] : TransCmp (Version.orderList order) :=
  transCmp_congr inferInstance Version.orderList_eq

end

namespace PreIdentifier

/-- Words come behind numbers. -/
def isWord : PreIdentifier → Bool
  | number _ => false
  | word _ => true

/-- The value of a number, and the characters of a word. -/
def content : PreIdentifier → Nat × String
  | number n => (n, "")
  | word s => (0, s)

theorem order_eq (a b : PreIdentifier) : order a b =
    compareLex (compareOn isWord) (compareLex (compareOn (·.content.1))
      (compareOn (·.content.2))) a b := by
  cases a with
  | number n =>
    cases b with
    | number m => simp [order, compareLex, compareOn, isWord, content]
    | word t => rfl
  | word s =>
    cases b with
    | number m => rfl
    | word t => simp [order, compareLex, compareOn, isWord, content]

instance : TransCmp order := transCmp_congr inferInstance order_eq

end PreIdentifier

namespace Version

theorem orderPre_eq (a b : List PreIdentifier) : orderPre a b =
    compareLex (compareOn List.isEmpty) (orderList PreIdentifier.order) a b := by
  cases a <;> cases b <;> rfl

instance : TransCmp orderPre := transCmp_congr inferInstance orderPre_eq

/-- The value and the length of a build identifier that is a number, the characters of another. -/
def buildContent (s : String) : Nat × Nat × String :=
  if s.toList.all Text.isDigit then (Text.valueOf s.toList, s.length, "") else (0, 0, s)

theorem orderBuildIdentifier_eq (a b : String) : orderBuildIdentifier a b =
    compareLex (compareOn fun s => !s.toList.all Text.isDigit) (compareLex
      (compareOn fun s => (buildContent s).1) (compareLex (compareOn fun s => (buildContent s).2.1)
        (compareOn fun s => (buildContent s).2.2))) a b := by
  rw [orderBuildIdentifier]
  simp only [compareLex, compareOn, buildContent]
  cases a.toList.all Text.isDigit <;> cases b.toList.all Text.isDigit
  · simp
  · rfl
  · rfl
  · simp

instance : TransCmp orderBuildIdentifier := transCmp_congr inferInstance orderBuildIdentifier_eq

instance : TransCmp order := by
  have hpre : TransCmp fun a b : Version => orderPre a.pre b.pre := transCmp_on _ inferInstance
  have hbuild : TransCmp fun a b : Version => orderList orderBuildIdentifier a.build b.build :=
    transCmp_on _ inferInstance
  exact inferInstanceAs (TransCmp (compareLex (compareOn Version.major) (compareLex
    (compareOn Version.minor) (compareLex (compareOn Version.patch) (compareLex
      (fun a b => orderPre a.pre b.pre) fun a b => orderList orderBuildIdentifier a.build b.build)))))

/-- The version that a text is; any one will do for a text that is none. -/
def ofText (text : String) : Version := (parse? text).getD ⟨0, 0, 0, [], []⟩

theorem orderTexts_eq (a b : String) : orderTexts a b =
    compareLex (compareOn fun text => (parse? text).isSome)
      (fun a b => order (ofText a) (ofText b)) a b := by
  rw [orderTexts]
  simp only [compareLex, compareOn, ofText]
  cases parse? a <;> cases parse? b
  · have hself : order ⟨0, 0, 0, [], []⟩ ⟨0, 0, 0, [], []⟩ = .eq := ReflCmp.compare_self
    exact hself.symm
  · rfl
  · rfl
  · simp

instance : TransCmp orderTexts := by
  have hversions : TransCmp fun a b => order (ofText a) (ofText b) := transCmp_on _ inferInstance
  exact transCmp_congr inferInstance orderTexts_eq

theorem orderTexts_self (text : String) : orderTexts text text = .eq := ReflCmp.compare_self

theorem orderTexts_swap (a b : String) : (orderTexts a b).swap = orderTexts b a :=
  OrientedCmp.eq_swap.symm

end Version
end RouterShift
