import Mathlib.Data.List.Pairwise
import RouterShift.Proofs.Edit.Selection

/-! Replacements made one after the other, from the back to the front, against replacements made all
    at once. `pass` copies a text from left to right and puts each replacement where its span was
    in the text as it stood at first; `applyEdits_simultaneous` says that a batch comes to the
    same text, that nothing is cut where a text cannot be cut, and what is left out of it. -/

namespace RouterShift.Edit
open Text

/-- One pass over the bytes from `i` to `j`: what stands between the replacements is copied. -/
def pass (cs : List Char) (i : Nat) (rs : List Replacement) (j : Nat) : Option (List Char) :=
  match rs with
  | [] => slice? cs i j
  | r :: rs => do
    let kept ← slice? cs i r.range.start
    let after ← pass cs r.range.stop rs j
    return kept ++ r.text.toList ++ after

/-- The order of a pass: by start, then by end. -/
def isLeftOf (a b : Replacement) : Bool :=
  a.range.start < b.range.start ||
    (a.range.start == b.range.start && a.range.stop ≤ b.range.stop)

/-- All replacements made at once, in a single pass over the text. -/
def simultaneous (cs : List Char) (rs : List Replacement) : Option (List Char) :=
  pass cs 0 (rs.mergeSort isLeftOf) (byteLength cs)

/-- Replacements made in turn each find their place in what the ones before have left. -/
def CutInPlace : List Char → List Replacement → Prop
  | _, [] => True
  | cs, r :: rs => Addressable cs r.range ∧ CutInPlace (splice cs r) rs

theorem pass_cons {cs kept after : List Char} {i j : Nat} {r : Replacement} {rs : List Replacement}
    (hk : slice? cs i r.range.start = some kept) (ha : pass cs r.range.stop rs j = some after) :
    pass cs i (r :: rs) j = some (kept ++ r.text.toList ++ after) := by
  simp only [pass, hk, ha, Option.bind_eq_bind, Option.bind_some, Option.pure_def]

/-- A replacement behind all others is made on the last stretch of the pass. -/
theorem pass_concat {cs y : List Char} {j : Nat} {r : Replacement} :
    ∀ {rs : List Replacement} {i : Nat} {x : List Char}, pass cs i rs r.range.start = some x →
      slice? cs r.range.stop j = some y → pass cs i (rs ++ [r]) j = some (x ++ r.text.toList ++ y)
  | [], i, x, hx, hy => pass_cons hx hy
  | q :: rs, i, x, hx, hy => by
    simp only [pass, Option.bind_eq_bind, Option.bind_eq_some_iff, Option.pure_def,
      Option.some.injEq] at hx
    obtain ⟨kept, hk, after, ha, rfl⟩ := hx
    rw [List.cons_append, pass_cons hk (pass_concat ha hy)]
    simp only [List.append_assoc]

theorem splice_append {a m b : List Char} {r : Replacement} (ha : byteLength a = r.range.start)
    (hm : r.range.start + byteLength m = r.range.stop) :
    splice (a ++ m ++ b) r = a ++ r.text.toList ++ b := by
  have hstop : cutAt? (a ++ m ++ b) r.range.stop = some (a ++ m, b) :=
    cutAt?_eq_some.2 ⟨rfl, by rw [byteLength_append]; omega⟩
  have hstart : cutAt? (a ++ m) r.range.start = some (a, m) := cutAt?_eq_some.2 ⟨rfl, ha⟩
  simp only [splice, hstop, hstart]

/-! ### In turn and at once -/

/-- The part of a text in front of the last replacement made is still the original one, so making
    the others in turn there is one pass over it. -/
theorem foldl_splice_eq_pass {cs : List Char} : ∀ (rs : List Replacement) (front back : List Char),
    cs = front ++ back → rs.Pairwise Apart → (∀ r ∈ rs, Addressable cs r.range) →
    (∀ r ∈ rs, r.range.stop ≤ byteLength front) → ∀ tail : List Char,
      CutInPlace (front ++ tail) rs ∧
        ∃ out, pass cs 0 rs.reverse (byteLength front) = some out ∧
          rs.foldl splice (front ++ tail) = out ++ tail
  | [], front, back, hcs, _, _, _, tail => by
    refine ⟨trivial, front, ?_, rfl⟩
    exact slice?_eq_some.2 ⟨[], back, by simpa using hcs, rfl, Nat.zero_add _⟩
  | r :: rs, front, back, hcs, hp, haddr, hle, tail => by
    obtain ⟨hr, hp'⟩ := List.pairwise_cons.1 hp
    obtain ⟨a, m, b, hcs', ha, hm⟩ := addressable_iff.1 (haddr r List.mem_cons_self)
    obtain ⟨b', rfl, rfl⟩ : ∃ b', front = a ++ m ++ b' ∧ b = b' ++ back := by
      refine prefix_of_byteLength_le (hcs'.symm.trans hcs) ?_
      have := hle r List.mem_cons_self
      rw [byteLength_append]; omega
    have hsplice : splice (a ++ m ++ b' ++ tail) r = a ++ (r.text.toList ++ (b' ++ tail)) := by
      rw [List.append_assoc (a ++ m), splice_append ha hm]
      simp only [List.append_assoc]
    have hfirst : ∀ x ∈ rs, x.range.stop ≤ byteLength a := fun x hx => ha ▸ (hr x hx).1
    obtain ⟨hcut, out, hpass, hfold⟩ := foldl_splice_eq_pass rs a (m ++ (b' ++ back))
      (by rw [hcs']; simp only [List.append_assoc]) hp' (fun x hx => haddr x (.tail r hx)) hfirst
      (r.text.toList ++ (b' ++ tail))
    have hb' : slice? cs r.range.stop (byteLength (a ++ m ++ b')) = some b' := by
      refine slice?_eq_some.2 ⟨a ++ m, back, ?_, ?_, ?_⟩
      · rw [hcs']; simp only [List.append_assoc]
      · rw [byteLength_append]; omega
      · rw [byteLength_append, byteLength_append]; omega
    refine ⟨⟨?_, ?_⟩, out ++ r.text.toList ++ b', ?_, ?_⟩
    · exact addressable_iff.2 ⟨a, m, b' ++ tail, by simp only [List.append_assoc], ha, hm⟩
    · rw [hsplice]; exact hcut
    · rw [List.reverse_cons]
      exact pass_concat (ha ▸ hpass) hb'
    · rw [List.foldl_cons, hsplice, hfold]
      simp only [List.append_assoc]

/-! ### Orders that agree -/

theorem isLeftOf_iff {a b : Replacement} : isLeftOf a b = true ↔
    a.range.start < b.range.start ∨
      (a.range.start = b.range.start ∧ a.range.stop ≤ b.range.stop) := by
  simp [isLeftOf]

theorem isLeftOf_trans (a b c : Replacement) (hab : isLeftOf a b = true)
    (hbc : isLeftOf b c = true) : isLeftOf a c = true := by
  rw [isLeftOf_iff] at *; omega

theorem isLeftOf_total (a b : Replacement) : (isLeftOf a b || isLeftOf b a) = true := by
  rw [Bool.or_eq_true, isLeftOf_iff, isLeftOf_iff]; omega

theorem Apart.isLeftOf {a b : Replacement} (h : Apart a b) (ha : a.range.start ≤ a.range.stop)
    (hb : b.range.start ≤ b.range.stop) : isLeftOf b a = true := by
  rw [isLeftOf_iff]
  have := h.1
  omega

/-- What stands apart has no place in common. -/
theorem eq_of_range_eq {rs : List Replacement} (hp : rs.Pairwise Apart) {a b : Replacement}
    (ha : a ∈ rs) (hb : b ∈ rs) (hrange : a.range = b.range) : a = b := by
  by_contra hne
  have hsymm : Std.Symm fun x y : Replacement => x.range ≠ y.range := ⟨fun _ _ h => h.symm⟩
  exact (hp.imp fun h => h.2).forall ha hb hne hrange

/-- What stands apart has one order only. -/
theorem eq_of_isLeftOf {rs : List Replacement} (hp : rs.Pairwise Apart)
    {a b : Replacement} (ha : a ∈ rs) (hb : b ∈ rs)
    (hab : Edit.isLeftOf a b = true) (hba : Edit.isLeftOf b a = true) : a = b := by
  rw [isLeftOf_iff] at hab hba
  refine eq_of_range_eq hp ha hb ?_
  obtain ⟨⟨_, _⟩, _⟩ := a
  obtain ⟨⟨_, _⟩, _⟩ := b
  simp only [Span.mk.injEq] at *
  omega

/-- The order in which replacements are made is the order of the pass, backwards. -/
theorem mergeSort_isLeftOf_eq_reverse {rs : List Replacement} (hp : rs.Pairwise Apart)
    (ho : ∀ r ∈ rs, r.range.start ≤ r.range.stop) : rs.mergeSort isLeftOf = rs.reverse := by
  have hperm : (rs.mergeSort isLeftOf).Perm rs := List.mergeSort_perm rs _
  refine @List.Perm.eq_of_pairwise _ (isLeftOf · ·) _ _ ?_ ?_ ?_
    (hperm.trans (List.reverse_perm rs).symm)
  · intro a b ha hb hab hba
    exact eq_of_isLeftOf hp (hperm.subset ha) (List.mem_reverse.1 hb) hab hba
  · exact List.pairwise_mergeSort isLeftOf_trans isLeftOf_total rs
  · rw [List.pairwise_reverse]
    exact hp.imp_of_mem fun ha hb h => h.isLeftOf (ho _ ha) (ho _ hb)

/-- The order of a batch that stands apart is no matter to a pass. -/
theorem simultaneous_perm {cs : List Char} {rs rs' : List Replacement} (hperm : rs'.Perm rs)
    (hp : rs.Pairwise Apart) : simultaneous cs rs' = simultaneous cs rs := by
  have hsort : ∀ l : List Replacement, (l.mergeSort isLeftOf).Pairwise (isLeftOf · ·) :=
    List.pairwise_mergeSort isLeftOf_trans isLeftOf_total
  have hsorted : rs'.mergeSort isLeftOf = rs.mergeSort isLeftOf := by
    refine @List.Perm.eq_of_pairwise _ (isLeftOf · ·) _ _ ?_ (hsort rs') (hsort rs)
      (((List.mergeSort_perm rs' _).trans hperm).trans (List.mergeSort_perm rs _).symm)
    intro a b ha hb hab hba
    have ha' := hperm.subset ((List.mergeSort_perm rs' _).subset ha)
    exact eq_of_isLeftOf hp ha' ((List.mergeSort_perm rs _).subset hb) hab hba
  rw [simultaneous, simultaneous, hsorted]

end RouterShift.Edit
