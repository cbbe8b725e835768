import Mathlib.Data.List.Basic
import RouterShift.Proofs.Edit.Batch

/-! Where the parts of a text are once replacements are made elsewhere in it. A part keeps its place
    when it stands in front of a replacement, and moves along with the end of the new text when it
    stands behind; in either case something must be left between the two. Of insertions more is
    known: what is inserted at a place or before it moves the place, and a part of the text that
    nothing is inserted into is found again where its beginning has moved to
    (`foldl_splice_kept`). -/

namespace RouterShift

/-- Where the new text of a replacement stands. -/
def Replacement.written (r : Replacement) : Span :=
  ⟨r.range.start, r.range.start + Text.byteLength r.text.toList⟩

/-- Where a span is once a replacement is made; nowhere when the replacement reaches it or what is
    right at its ends. -/
def Span.moved? (s : Span) (r : Replacement) : Option Span :=
  if s.stop < r.range.start then some s
  else if r.range.stop < s.start then
    some ⟨r.written.stop + (s.start - r.range.stop), r.written.stop + (s.stop - r.range.stop)⟩
  else none

/-- Where a span is once replacements are made one after another. -/
def Span.movedAll? (s : Span) (rs : List Replacement) : Option Span := rs.foldlM Span.moved? s

/-- Where a span is once a replacement is made, when the replacement may be one of all of it. -/
def Replacement.found? (r : Replacement) (s : Span) : Option Span :=
  if s = r.range then some r.written else s.moved? r

namespace Edit
open Text

/-- A span that is found again stands in front of the replacement, stands behind it, or is what is
    replaced. -/
theorem moved?_cases {r : Replacement} {s u : Span} (h : s.moved? r = some u) :
    (s.stop < r.range.start ∧ u = s) ∨
      (r.range.stop < s.start ∧ u.start = r.written.stop + (s.start - r.range.stop) ∧
        u.stop = r.written.stop + (s.stop - r.range.stop)) := by
  rw [Span.moved?] at h
  split at h
  · next hfront => exact .inl ⟨hfront, (Option.some.inj h).symm⟩
  · split at h
    · next hbehind =>
      cases h
      exact .inr ⟨hbehind, rfl, rfl⟩
    · cases h

/-- No two spans are found in one place. -/
theorem found?_injective {r : Replacement} {s t u : Span} (hs : s.start ≤ s.stop)
    (ht : t.start ≤ t.stop) (h : r.found? s = some u) (h' : r.found? t = some u) : s = t := by
  have hstop : r.range.start ≤ r.written.stop := Nat.le_add_right _ _
  have hstart : r.written.start = r.range.start := rfl
  rw [Replacement.found?] at h h'
  split at h <;> split at h'
  · next hs ht => rw [hs, ht]
  · cases h
    rcases moved?_cases h' with ⟨hlt, heq⟩ | ⟨hlt, heq, -⟩
    · rw [← heq] at hlt ht
      omega
    · omega
  · cases h'
    rcases moved?_cases h with ⟨hlt, heq⟩ | ⟨hlt, heq, -⟩
    · rw [← heq] at hlt hs
      omega
    · omega
  · obtain ⟨a, b⟩ := s
    obtain ⟨c, d⟩ := t
    simp only [Span.mk.injEq] at hs ht ⊢
    rcases moved?_cases h with ⟨hlt, rfl⟩ | ⟨hlt, h1, h2⟩ <;>
      rcases moved?_cases h' with ⟨hlt', heq⟩ | ⟨hlt', h1', h2'⟩
    · simpa using heq
    · simp only at *
      omega
    · subst heq
      simp only at *
      omega
    · simp only at *
      omega

/-! ### Batches that are made -/

@[simp] theorem made_nil : made [] = [] := by simp [made, inTurn, choose]

@[simp] theorem made_singleton (r : Replacement) : made [r] = [r] := by
  simp [made, inTurn, choose, fits]

/-- What a batch comes to that can be made. -/
theorem of_applyEdits {text : String} {rs : List Replacement} {out : EditOutcome}
    (h : applyEdits text rs = .ok out) :
    (∀ r ∈ rs, Addressable text.toList r.range) ∧
      out.text.toList = (made rs).foldl splice text.toList := by
  have haddr : ∀ r ∈ rs, Addressable text.toList r.range := by
    intro r hr
    by_contra hno
    have hsome : ∃ e, (rs.findSome? fun x => fault? text.toList x.range) = some e := by
      rw [← Option.isSome_iff_exists, List.findSome?_isSome_iff]
      exact ⟨r, hr, by rw [fault?_eq_some hno]; rfl⟩
    obtain ⟨e, he⟩ := hsome
    simp [applyEdits, he] at h
  rw [applyEdits_eq haddr, Except.ok.injEq] at h
  exact ⟨haddr, by rw [← h, String.toList_ofList]⟩

/-! ### Insertions -/

/-- Nothing is taken away. -/
def IsInsertion (r : Replacement) : Prop := r.range.start = r.range.stop

/-- Insertions that are made one after another, each at a place of its own. -/
structure MadeInTurn (cs : List Char) (rs : List Replacement) : Prop where
  insertions : ∀ r ∈ rs, IsInsertion r
  apart : rs.Pairwise Apart
  inPlace : CutInPlace cs rs

/-- How much longer a text is with all of the insertions. -/
def growth (rs : List Replacement) : Nat := byteLength (rs.flatMap fun r => r.text.toList)

/-- Where a place of a text is once insertions are made; one at the place itself comes before it. -/
def shift (rs : List Replacement) (pos : Nat) : Nat :=
  pos + growth (rs.filter (·.range.start ≤ pos))

/-- Where the end of something is once insertions are made; one at the end itself comes behind it. -/
def shiftEnd (rs : List Replacement) (pos : Nat) : Nat :=
  pos + growth (rs.filter (·.range.start < pos))

section
variable {cs a b m : List Char} {r : Replacement} {rs : List Replacement} {pos : Nat}

theorem growth_cons : growth (r :: rs) = byteLength r.text.toList + growth rs := by
  rw [growth, List.flatMap_cons, byteLength_append, growth]

theorem shiftEnd_le_shift (rs : List Replacement) (pos : Nat) : shiftEnd rs pos ≤ shift rs pos := by
  rw [shiftEnd, shift, Nat.add_le_add_iff_left]
  induction rs with
  | nil => exact Nat.le_refl _
  | cons r rs ih =>
    by_cases hlt : r.range.start < pos
    · rw [List.filter_cons_of_pos (by simpa using hlt),
        List.filter_cons_of_pos (by simpa using Nat.le_of_lt hlt), growth_cons, growth_cons]
      exact Nat.add_le_add_left ih _
    · rw [List.filter_cons_of_neg (by simpa using hlt), List.filter_cons]
      split
      · rw [growth_cons]
        exact Nat.le_trans ih (Nat.le_add_left _ _)
      · exact ih

/-- Of two insertions that stand apart the one made later stands further to the front. -/
theorem Apart.lt {q : Replacement} (h : Apart r q) (hr : IsInsertion r) (hq : IsInsertion q) :
    q.range.start < r.range.start := by
  obtain ⟨hle, hne⟩ := h
  obtain ⟨⟨i, j⟩, t⟩ := r
  obtain ⟨⟨k, l⟩, u⟩ := q
  simp only [IsInsertion, ne_eq, Span.mk.injEq] at *
  omega

theorem splice_insertion (hr : IsInsertion r) (ha : byteLength a = r.range.start) :
    splice (a ++ b) r = a ++ r.text.toList ++ b := by
  have hsplice := splice_append (m := []) (b := b) ha hr
  rwa [List.append_nil] at hsplice

/-- The first insertion that is made is the one furthest back. -/
theorem MadeInTurn.first (h : MadeInTurn cs (r :: rs)) :
    (∃ x y, cs = x ++ y ∧ byteLength x = r.range.start ∧
      splice cs r = x ++ r.text.toList ++ y) ∧
    MadeInTurn (splice cs r) rs ∧ ∀ q ∈ rs, q.range.start < r.range.start := by
  obtain ⟨hr, hp⟩ := List.pairwise_cons.1 h.apart
  have hins : IsInsertion r := h.insertions r List.mem_cons_self
  have hrs : ∀ q ∈ rs, IsInsertion q := fun q hq => h.insertions q (.tail r hq)
  refine ⟨?_, ⟨hrs, hp, h.inPlace.2⟩, fun q hq => (hr q hq).lt hins (hrs q hq)⟩
  obtain ⟨x, z, y, hxy, hx, hz⟩ := addressable_iff.1 h.inPlace.1
  have hz₀ : byteLength z = 0 := by
    have hsame : r.range.start = r.range.stop := hins
    omega
  rw [byteLength_eq_zero.1 hz₀, List.append_nil] at hxy
  exact ⟨x, y, hxy, hx, by rw [hxy, splice_insertion hins hx]⟩

/-- An insertion is made in front of a part of a text, or behind it. -/
def Clears (isBefore : Replacement → Bool) (start stop : Nat) (r : Replacement) : Prop :=
  isBefore r = true ∧ r.range.start ≤ start ∨ isBefore r = false ∧ stop ≤ r.range.start

/-- A part that no insertion falls into is kept, by induction on the insertions from the back of
    the text to its front. Its beginning moves meanwhile, so what is made in front of it is said
    beforehand. -/
theorem foldl_splice_clear {isBefore : Replacement → Bool} (h : MadeInTurn cs rs)
    (hcs : cs = a ++ m ++ b)
    (hout : ∀ r ∈ rs, Clears isBefore (byteLength a) (byteLength a + byteLength m) r) :
    ∃ a' b', rs.foldl splice cs = a' ++ m ++ b' ∧
      byteLength a' = byteLength a + growth (rs.filter isBefore) := by
  induction rs generalizing cs a b with
  | nil => exact ⟨a, b, hcs, rfl⟩
  | cons r rs ih =>
    obtain ⟨⟨x, y, hxy, hx, hsplice⟩, hmore, hlt⟩ := h.first
    rw [List.foldl_cons]
    rcases hout r List.mem_cons_self with ⟨hbefore, hle⟩ | ⟨hbehind, hge⟩
    · -- all that follow are made in front of the part, too
      have hfront : x ++ y = a ++ (m ++ b) := by rw [← hxy, hcs, List.append_assoc]
      obtain ⟨a₂, rfl, rfl⟩ := prefix_of_byteLength_le hfront (by omega)
      have hcs' : splice cs r = (x ++ r.text.toList ++ a₂) ++ m ++ b := by
        rw [hsplice]
        simp only [List.append_assoc]
      have hlength : byteLength (x ++ r.text.toList ++ a₂) =
          byteLength (x ++ a₂) + byteLength r.text.toList := by
        simp only [byteLength_append]
        omega
      have hrest : ∀ q ∈ rs, Clears isBefore (byteLength (x ++ r.text.toList ++ a₂))
          (byteLength (x ++ r.text.toList ++ a₂) + byteLength m) q := by
        intro q hq
        have hlt := hlt q hq
        rcases hout q (.tail r hq) with ⟨hbefore, hle⟩ | ⟨-, hge⟩
        · exact .inl ⟨hbefore, by omega⟩
        · omega
      obtain ⟨a', b', hfold, ha'⟩ := ih hmore hcs' hrest
      refine ⟨a', b', hfold, ?_⟩
      rw [ha', List.filter_cons_of_pos hbefore, growth_cons, hlength]
      omega
    · have hge : byteLength (a ++ m) ≤ byteLength x := by
        rw [byteLength_append]
        omega
      obtain ⟨x₂, rfl, rfl⟩ := prefix_of_byteLength_le (hcs.symm.trans hxy) hge
      have hcs' : splice cs r = a ++ m ++ (x₂ ++ r.text.toList ++ y) := by
        rw [hsplice]
        simp only [List.append_assoc]
      rw [List.filter_cons_of_neg (by simp [hbehind])]
      exact ih hmore hcs' fun q hq => hout q (.tail r hq)

theorem clears_of_out {start stop : Nat} (h : r.range.start ≤ start ∨ stop ≤ r.range.start) :
    Clears (·.range.start ≤ start) start stop r := by
  by_cases hle : r.range.start ≤ start
  · exact .inl ⟨by simpa using hle, hle⟩
  · exact .inr ⟨by simpa using hle, h.resolve_left hle⟩

/-- A part that no insertion falls into is found where its beginning has moved to. -/
theorem foldl_splice_kept (h : MadeInTurn cs rs) (hcs : cs = a ++ m ++ b)
    (hout : ∀ r ∈ rs, r.range.start ≤ byteLength a ∨
      byteLength a + byteLength m ≤ r.range.start) :
    ∃ a' b', rs.foldl splice cs = a' ++ m ++ b' ∧ byteLength a' = shift rs (byteLength a) :=
  foldl_splice_clear h hcs fun r hr => clears_of_out (hout r hr)

/-! ### Batches -/

/-- The insertions of a batch that are made. -/
theorem madeInTurn_made (haddr : ∀ r ∈ rs, Addressable cs r.range)
    (hins : ∀ r ∈ rs, IsInsertion r) : MadeInTurn cs (made rs) where
  insertions r hr := hins r (mem_of_mem_made hr)
  apart := made_apart fun r hr => (haddr r hr).ordered
  inPlace := (cutInPlace_made haddr).1

end
end Edit
end RouterShift
