import Mathlib.Data.List.Basic
import RouterShift.Edit
import RouterShift.Proofs.Text.Cut

/-! Which replacements of a batch are made. Replacements are looked at from the back to the front
    and only the last one made is asked whether there is room. That is enough: what is made stands
    apart, and whatever is left out overlaps something that is made. -/

namespace RouterShift.Edit
open Text

/-- A span along which a text can be cut. -/
structure Addressable (cs : List Char) (s : Span) : Prop where
  ordered : s.start ≤ s.stop
  inBounds : s.stop ≤ byteLength cs
  startBoundary : isBoundary cs s.start = true
  stopBoundary : isBoundary cs s.stop = true

instance (cs : List Char) (s : Span) : Decidable (Addressable cs s) :=
  decidable_of_iff (s.start ≤ s.stop ∧ s.stop ≤ byteLength cs ∧ isBoundary cs s.start = true ∧
    isBoundary cs s.stop = true)
    ⟨fun ⟨h1, h2, h3, h4⟩ => ⟨h1, h2, h3, h4⟩, fun ⟨h1, h2, h3, h4⟩ => ⟨h1, h2, h3, h4⟩⟩

/-- The parts of a text before, along and after a span. -/
theorem addressable_iff {cs : List Char} {s : Span} : Addressable cs s ↔
    ∃ a m b, cs = a ++ m ++ b ∧ byteLength a = s.start ∧ s.start + byteLength m = s.stop := by
  constructor
  · rintro ⟨hle, -, hstart, hstop⟩
    obtain ⟨a, b, rfl, ha⟩ := isBoundary_iff.1 hstart
    obtain ⟨a', b', heq, ha'⟩ := isBoundary_iff.1 hstop
    obtain ⟨m, rfl, rfl⟩ := prefix_of_byteLength_le heq (by omega)
    rw [byteLength_append] at ha'
    exact ⟨a, m, b', heq, ha, by omega⟩
  · rintro ⟨a, m, b, rfl, ha, hm⟩
    refine ⟨by omega, ?_, ?_, ?_⟩
    · rw [byteLength_append, byteLength_append]; omega
    · exact isBoundary_iff.2 ⟨a, m ++ b, List.append_assoc a m b, ha⟩
    · exact isBoundary_iff.2 ⟨a ++ m, b, rfl, by rw [byteLength_append]; omega⟩

/-- The fault of a span that cannot be addressed: bounds come before boundaries. -/
def faultOf (cs : List Char) (s : Span) : EditError :=
  if s.start ≤ s.stop ∧ s.stop ≤ byteLength cs then .charBoundary s
  else .outOfBounds s (byteLength cs)

theorem fault?_eq_none {cs : List Char} {s : Span} : fault? cs s = none ↔ Addressable cs s := by
  constructor
  · intro h
    simp only [fault?, Bool.or_eq_true, decide_eq_true_eq, Bool.not_eq_true'] at h
    split at h
    · cases h
    · split at h
      · cases h
      · next hb hc =>
        simp only [not_or, Nat.not_lt, Bool.not_eq_false] at hb hc
        exact ⟨hb.1, hb.2, hc.1, hc.2⟩
  · rintro ⟨h1, h2, h3, h4⟩
    have hb : ¬ (s.start > s.stop ∨ s.stop > byteLength cs) := by omega
    simp [fault?, hb, h3, h4]

theorem fault?_eq_some {cs : List Char} {s : Span} (h : ¬ Addressable cs s) :
    fault? cs s = some (faultOf cs s) := by
  by_cases hb : s.start ≤ s.stop ∧ s.stop ≤ byteLength cs
  · have hb' : ¬ (s.start > s.stop ∨ s.stop > byteLength cs) := by omega
    have hc : isBoundary cs s.start = false ∨ isBoundary cs s.stop = false := by
      by_contra hc
      simp only [not_or, Bool.not_eq_false] at hc
      exact h ⟨hb.1, hb.2, hc.1, hc.2⟩
    simp [fault?, faultOf, hb, hb', hc]
  · have hb' : s.start > s.stop ∨ s.stop > byteLength cs := by omega
    simp [fault?, faultOf, hb, hb']

/-! ### Overlap -/

/-- Spans that do not overlap are told apart by their ends, or by being different insertions. -/
theorem overlaps_eq_false {s t : Span} (hs : s.start ≤ s.stop) (ht : t.start ≤ t.stop) :
    s.overlaps t = false ↔ (s.stop ≤ t.start ∨ t.stop ≤ s.start) ∧ s ≠ t := by
  obtain ⟨a, b⟩ := s
  obtain ⟨c, d⟩ := t
  simp only at hs ht
  rw [Span.overlaps]
  split
  · next he =>
    simp only [Span.isEmpty, Bool.and_eq_true, beq_iff_eq] at he
    obtain ⟨rfl, rfl⟩ := he
    simp
    omega
  · next he =>
    simp only [Span.isEmpty, Bool.and_eq_true, beq_iff_eq] at he
    simp
    omega

theorem overlaps_comm (s t : Span) : s.overlaps t = t.overlaps s := by
  simp only [Span.overlaps, Bool.and_comm, Bool.beq_comm]

/-- `b` is made after `a`, further to the front and at a place of its own. -/
def Apart (a b : Replacement) : Prop := b.range.stop ≤ a.range.start ∧ a.range ≠ b.range

theorem Apart.not_overlaps {a b : Replacement} (h : Apart a b) (ha : a.range.start ≤ a.range.stop)
    (hb : b.range.start ≤ b.range.stop) : a.range.overlaps b.range = false :=
  (overlaps_eq_false ha hb).2 ⟨.inr h.1, h.2⟩

/-! ### The order -/

theorem isBefore_iff {a b : Replacement} : isBefore a b = true ↔
    b.range.start < a.range.start ∨
      (a.range.start = b.range.start ∧ b.range.stop ≤ a.range.stop) := by
  simp [isBefore]

theorem isBefore_trans (a b c : Replacement) (hab : isBefore a b = true)
    (hbc : isBefore b c = true) : isBefore a c = true := by
  rw [isBefore_iff] at *; omega

theorem isBefore_total (a b : Replacement) : (isBefore a b || isBefore b a) = true := by
  rw [Bool.or_eq_true, isBefore_iff, isBefore_iff]; omega

/-! ### Choosing -/

theorem fits_some {last : Span} {r : Replacement} (hl : last.start ≤ last.stop)
    (hr : r.range.start ≤ r.range.stop) :
    fits (some last) r = true ↔ r.range.stop ≤ last.start ∧ r.range ≠ last := by
  simp only [fits, Bool.not_eq_true', Bool.or_eq_false_iff, decide_eq_false_iff_not]
  rw [overlaps_eq_false hr hl]
  constructor
  · rintro ⟨h, -, hne⟩
    exact ⟨by omega, hne⟩
  · rintro ⟨h, hne⟩
    exact ⟨by omega, .inl h, hne⟩

theorem choose_perm : ∀ (rs : List Replacement) (made : Option Span),
    ((choose made rs).1 ++ (choose made rs).2).Perm rs
  | [], _ => by rw [choose]; exact .refl _
  | r :: rs, made => by
    rw [choose]
    split
    · exact (choose_perm rs (some r.range)).cons r
    · exact List.perm_middle.trans ((choose_perm rs made).cons r)

theorem mem_of_mem_kept {rs : List Replacement} {made : Option Span} {r : Replacement}
    (h : r ∈ (choose made rs).1) : r ∈ rs :=
  (choose_perm rs made).subset (List.mem_append_left _ h)

/-- What is made stands apart, and in front of what was made before. -/
theorem choose_apart : ∀ (rs : List Replacement) (made : Option Span),
    (∀ r ∈ rs, r.range.start ≤ r.range.stop) → (∀ last ∈ made, last.start ≤ last.stop) →
    (choose made rs).1.Pairwise Apart ∧
      ∀ last ∈ made, ∀ r ∈ (choose made rs).1, r.range.stop ≤ last.start ∧ r.range ≠ last
  | [], _, _, _ => by simp [choose]
  | r :: rs, made, ho, hm => by
    have hr := ho r List.mem_cons_self
    have ho' : ∀ x ∈ rs, x.range.start ≤ x.range.stop := fun x hx => ho x (.tail r hx)
    rw [choose]
    split
    · next hfit =>
      obtain ⟨hp, hlast⟩ := choose_apart rs (some r.range) ho' (by simpa using hr)
      refine ⟨List.Pairwise.cons (fun x hx => ?_) hp, ?_⟩
      · obtain ⟨hle, hne⟩ := hlast _ rfl x hx
        exact ⟨hle, hne.symm⟩
      · rintro last rfl x hx
        have hf := (fits_some (hm _ rfl) hr).1 hfit
        rcases List.mem_cons.1 hx with rfl | hx
        · exact hf
        · -- further ones end where `r` starts, so they meet `last` only if `r` is `last`
          obtain ⟨hle, hne⟩ := hlast _ rfl x hx
          have hl := hm _ rfl
          refine ⟨by omega, fun heq => hne ?_⟩
          obtain ⟨⟨a, b⟩, t⟩ := r
          obtain ⟨⟨c, d⟩, u⟩ := x
          subst heq
          simp only [Span.mk.injEq] at *
          omega
    · exact choose_apart rs made ho' hm

/-- Whatever is left out overlaps something that is made. -/
theorem overlaps_of_mem_left : ∀ (rs : List Replacement) (made : Option Span),
    rs.Pairwise (isBefore · ·) → (∀ r ∈ rs, r.range.start ≤ r.range.stop) →
    (∀ last ∈ made, last.start ≤ last.stop ∧ ∀ r ∈ rs, isBefore ⟨last, ""⟩ r = true) →
    ∀ s ∈ (choose made rs).2,
      (∃ a ∈ (choose made rs).1, s.range.overlaps a.range = true) ∨
        ∃ last ∈ made, s.range.overlaps last = true
  | [], _, _, _, _, s, hs => by simp [choose] at hs
  | r :: rs, made, hsort, ho, hm, s, hs => by
    obtain ⟨hr, hsort'⟩ := List.pairwise_cons.1 hsort
    have ho' : ∀ x ∈ rs, x.range.start ≤ x.range.stop := fun x hx => ho x (.tail r hx)
    rw [choose] at hs ⊢
    split at hs
    · next hfit =>
      rw [if_pos hfit]
      have hnext : ∀ last ∈ some r.range, last.start ≤ last.stop ∧
          ∀ x ∈ rs, isBefore ⟨last, ""⟩ x = true := by
        rintro last ⟨⟩
        exact ⟨ho r List.mem_cons_self, fun x hx => hr x hx⟩
      rcases overlaps_of_mem_left rs (some r.range) hsort' ho' hnext s hs with
        ⟨a, ha, hov⟩ | ⟨last, ⟨⟩, hov⟩
      · exact .inl ⟨a, .tail r ha, hov⟩
      · exact .inl ⟨r, List.mem_cons_self, hov⟩
    · next hfit =>
      rw [if_neg hfit]
      rcases List.mem_cons.1 hs with rfl | hs
      · -- no room: the order says where `s` starts, so the two share a place
        cases made with
        | none => simp [fits] at hfit
        | some last =>
          obtain ⟨hl, hb⟩ := hm last rfl
          have hs' := ho s List.mem_cons_self
          have hbs := isBefore_iff.1 (hb s List.mem_cons_self)
          rw [fits_some hl hs'] at hfit
          refine .inr ⟨last, rfl, ?_⟩
          by_contra hov
          rw [Bool.not_eq_true, overlaps_eq_false hs' hl] at hov
          simp only at hbs
          apply hfit
          refine ⟨?_, hov.2⟩
          rcases hov.1 with h | h
          · exact h
          · -- only an insertion ends where it starts, and no longer span comes after it
            obtain ⟨⟨a, b⟩, t⟩ := s
            obtain ⟨c, d⟩ := last
            simp only [ne_eq, Span.mk.injEq] at *
            omega
      · exact overlaps_of_mem_left rs made hsort' ho'
          (fun last hlast => ⟨(hm last hlast).1, fun x hx => (hm last hlast).2 x (.tail r hx)⟩) s hs

end RouterShift.Edit
