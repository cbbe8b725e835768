import Mathlib.Data.List.Nodup
import RouterShift.Proofs.Edit.Simultaneous

/-! A batch of replacements as a whole. When every span can be addressed a batch cannot fail, and
    its outcome is described without the order in which it was worked off; otherwise the first span
    that cannot be addressed decides what is reported. Of the replacements for one span the first of
    the batch is made, since the sort keeps their order and the others overlap it; so when the spans
    of a batch are those of some replacements that stand apart (`Leads`), it is these that are
    made. -/

namespace RouterShift.Edit
open Text

/-- The replacements of a batch in the order in which they are looked at. -/
def inTurn (rs : List Replacement) : List Replacement := rs.mergeSort isBefore

theorem inTurn_perm (rs : List Replacement) : (inTurn rs).Perm rs := List.mergeSort_perm rs _

theorem pairwise_inTurn (rs : List Replacement) : (inTurn rs).Pairwise (isBefore · ·) :=
  List.pairwise_mergeSort isBefore_trans isBefore_total rs

/-- The replacements of a batch that are made. -/
def made (rs : List Replacement) : List Replacement := (choose none (inTurn rs)).1

/-- The replacements of a batch that are left out. -/
def leftOut (rs : List Replacement) : List Replacement := (choose none (inTurn rs)).2

theorem made_append_leftOut_perm (rs : List Replacement) : (made rs ++ leftOut rs).Perm rs :=
  (choose_perm _ _).trans (inTurn_perm rs)

section
variable {cs : List Char} {rs : List Replacement}

theorem mem_of_mem_made {r : Replacement} (h : r ∈ made rs) : r ∈ rs :=
  (inTurn_perm rs).subset (mem_of_mem_kept h)

theorem made_apart (ho : ∀ r ∈ rs, r.range.start ≤ r.range.stop) : (made rs).Pairwise Apart :=
  (choose_apart (inTurn rs) none (fun r hr => ho r ((inTurn_perm rs).subset hr)) (by simp)).1

theorem overlaps_of_mem_leftOut (ho : ∀ r ∈ rs, r.range.start ≤ r.range.stop) {s : Replacement}
    (hs : s ∈ leftOut rs) : ∃ a ∈ made rs, s.range.overlaps a.range = true := by
  have ho' : ∀ r ∈ inTurn rs, r.range.start ≤ r.range.stop := fun r hr =>
    ho r ((inTurn_perm rs).subset hr)
  rcases overlaps_of_mem_left (inTurn rs) none (pairwise_inTurn rs) ho' (by simp) s hs with
    h | ⟨_, h, _⟩
  · exact h
  · cases h

/-- A batch is made in turn without ever missing its place, and at once. -/
theorem cutInPlace_made (h : ∀ r ∈ rs, Addressable cs r.range) :
    CutInPlace cs (made rs) ∧ simultaneous cs (made rs) = some ((made rs).foldl splice cs) := by
  have ho : ∀ r ∈ rs, r.range.start ≤ r.range.stop := fun r hr => (h r hr).ordered
  have hmade : ∀ r ∈ made rs, Addressable cs r.range := fun r hr => h r (mem_of_mem_made hr)
  have hsort := mergeSort_isLeftOf_eq_reverse (made_apart ho) fun r hr => (hmade r hr).ordered
  obtain ⟨hcut, out, hpass, hfold⟩ := foldl_splice_eq_pass (made rs) cs [] (by simp)
    (made_apart ho) hmade (fun r hr => (hmade r hr).inBounds) []
  rw [List.append_nil] at hcut hfold
  refine ⟨hcut, ?_⟩
  rw [simultaneous, hsort, hpass, hfold, List.append_nil]

theorem applyEdits_eq {text : String} (h : ∀ r ∈ rs, Addressable text.toList r.range) :
    applyEdits text rs =
      .ok ⟨String.ofList ((made rs).foldl splice text.toList), made rs, leftOut rs⟩ := by
  have hfault : (rs.findSome? fun r => fault? text.toList r.range) = none := by
    rw [List.findSome?_eq_none_iff]
    exact fun r hr => fault?_eq_none.2 (h r hr)
  simp only [applyEdits, hfault, made, leftOut, inTurn]

/-- The order of a batch whose spans do not overlap is no matter. -/
theorem inTurn_congr {rs' : List Replacement} (hperm : rs'.Perm rs)
    (ho : ∀ r ∈ rs, r.range.start ≤ r.range.stop)
    (hp : rs.Pairwise fun a b => a.range.overlaps b.range = false) : inTurn rs' = inTurn rs := by
  have hne : rs.Pairwise fun a b => a.range ≠ b.range := hp.imp_of_mem fun ha hb h =>
    ((overlaps_eq_false (ho _ ha) (ho _ hb)).1 h).2
  refine @List.Perm.eq_of_pairwise _ (isBefore · ·) _ _ ?_ (pairwise_inTurn rs')
    (pairwise_inTurn rs) (((inTurn_perm rs').trans hperm).trans (inTurn_perm rs).symm)
  intro a b ha hb hab hba
  rw [isBefore_iff] at hab hba
  by_contra h
  have hsymm : Std.Symm fun x y : Replacement => x.range ≠ y.range := ⟨fun _ _ h => h.symm⟩
  have ha' := hperm.subset ((inTurn_perm rs').subset ha)
  refine hne.forall ha' ((inTurn_perm rs).subset hb) h ?_
  obtain ⟨⟨_, _⟩, _⟩ := a
  obtain ⟨⟨_, _⟩, _⟩ := b
  simp only [Span.mk.injEq] at *
  omega

/-- Of a batch whose spans do not overlap nothing is left out. -/
theorem leftOut_eq_nil (ho : ∀ r ∈ rs, r.range.start ≤ r.range.stop)
    (hp : rs.Pairwise fun a b => a.range.overlaps b.range = false) : leftOut rs = [] := by
  rw [List.eq_nil_iff_forall_not_mem]
  intro s hs
  obtain ⟨a, ha, hov⟩ := overlaps_of_mem_leftOut ho hs
  have hpw : (made rs ++ leftOut rs).Pairwise fun x y => x.range.overlaps y.range = false :=
    hp.perm (made_append_leftOut_perm rs).symm fun h => by rw [overlaps_comm]; exact h
  have hno := (List.pairwise_append.1 hpw).2.2 a ha s hs
  rw [overlaps_comm, hov] at hno
  cases hno

end

/-- What becomes of a batch. The first part is about batches whose spans can all be addressed: they
    succeed, every replacement is cut in place, nothing of the batch is lost, what is made does not
    overlap and what is left out overlaps something that is made, and the text is the one with all
    of it made at once; without overlaps nothing is left out and the order of the batch is no
    matter. The second part is about the first span that cannot be addressed. -/
theorem applyEdits_outcome (text : String) (rs : List Replacement) :
    ((∀ r ∈ rs, Addressable text.toList r.range) →
      ∃ out, applyEdits text rs = .ok out ∧
        CutInPlace text.toList out.applied ∧
        out.text.toList = out.applied.foldl splice text.toList ∧
        (out.applied ++ out.skipped).Perm rs ∧
        out.applied.Pairwise (fun a b => a.range.overlaps b.range = false) ∧
        (∀ s ∈ out.skipped, ∃ a ∈ out.applied, s.range.overlaps a.range = true) ∧
        simultaneous text.toList out.applied = some out.text.toList ∧
        (rs.Pairwise (fun a b => a.range.overlaps b.range = false) →
          out.skipped = [] ∧ ∀ rs' : List Replacement, rs'.Perm rs → applyEdits text rs' = .ok out)) ∧
    (∀ front r back, rs = front ++ r :: back →
      (∀ x ∈ front, Addressable text.toList x.range) → ¬ Addressable text.toList r.range →
        applyEdits text rs = .error (faultOf text.toList r.range)) := by
  constructor
  · intro h
    have ho : ∀ r ∈ rs, r.range.start ≤ r.range.stop := fun r hr => (h r hr).ordered
    obtain ⟨hcut, hsim⟩ := cutInPlace_made h
    refine ⟨_, applyEdits_eq h, hcut, String.toList_ofList, made_append_leftOut_perm rs,
      ?_, ?_, ?_, ?_⟩
    · exact (made_apart ho).imp_of_mem fun ha hb hab =>
        hab.not_overlaps (ho _ (mem_of_mem_made ha)) (ho _ (mem_of_mem_made hb))
    · exact fun s hs => overlaps_of_mem_leftOut ho hs
    · rw [String.toList_ofList]; exact hsim
    · intro hp
      refine ⟨leftOut_eq_nil ho hp, fun rs' hperm => ?_⟩
      rw [applyEdits_eq fun r hr => h r (hperm.subset hr), made, leftOut, inTurn_congr hperm ho hp]
      rfl
  · rintro front r back rfl hfront hr
    have hfault : ((front ++ r :: back).findSome? fun x => fault? text.toList x.range) =
        some (faultOf text.toList r.range) := by
      rw [List.findSome?_append, List.findSome?_eq_none_iff.2 fun x hx =>
        fault?_eq_none.2 (hfront x hx), Option.none_or, List.findSome?_cons, fault?_eq_some hr]
    simp only [applyEdits, hfault]

theorem applyEdits_outcome_adjoining :
    (∃ out, applyEdits "aéb" [⟨⟨1, 3⟩, "x"⟩, ⟨⟨3, 3⟩, "y"⟩] = .ok out ∧
      simultaneous "aéb".toList out.applied = some out.text.toList ∧ out.skipped = [] ∧
      applyEdits "aéb" [⟨⟨3, 3⟩, "y"⟩, ⟨⟨1, 3⟩, "x"⟩] = .ok out) ∧
    applyEdits "aéb" [⟨⟨1, 3⟩, "x"⟩, ⟨⟨2, 3⟩, "y"⟩, ⟨⟨0, 9⟩, "z"⟩] =
      .error (.charBoundary ⟨2, 3⟩) := by
  constructor
  · obtain ⟨out, hout, -, -, -, -, -, hsim, happart⟩ :=
      (applyEdits_outcome "aéb" [⟨⟨1, 3⟩, "x"⟩, ⟨⟨3, 3⟩, "y"⟩]).1 (by decide)
    obtain ⟨hskip, horder⟩ := happart (by decide)
    exact ⟨out, hout, hsim, hskip, horder _ (.swap _ _ _)⟩
  · exact (applyEdits_outcome "aéb" [⟨⟨1, 3⟩, "x"⟩, ⟨⟨2, 3⟩, "y"⟩, ⟨⟨0, 9⟩, "z"⟩]).2
      [⟨⟨1, 3⟩, "x"⟩] ⟨⟨2, 3⟩, "y"⟩ [⟨⟨0, 9⟩, "z"⟩] rfl (by decide) (by decide)

/-! ### Several replacements for one span -/

/-- The first replacement of a batch for a span. -/
def firstAt (rs : List Replacement) (s : Span) : Option Replacement := rs.find? (·.range = s)

/-- Replacements for one span keep their order. -/
theorem filter_inTurn (rs : List Replacement) (s : Span) :
    (inTurn rs).filter (·.range = s) = rs.filter (·.range = s) := by
  have hsub : (rs.filter (·.range = s)).Sublist (inTurn rs) := by
    refine List.sublist_mergeSort isBefore_trans isBefore_total ?_ List.filter_sublist
    refine List.pairwise_of_forall_mem_list fun a ha b hb => ?_
    have ha' : a.range = s := by simpa using (List.mem_filter.1 ha).2
    have hb' : b.range = s := by simpa using (List.mem_filter.1 hb).2
    rw [isBefore_iff, ha', hb']
    exact .inr ⟨rfl, Nat.le_refl _⟩
  have hsub' := hsub.filter (·.range = s)
  rw [List.filter_filter] at hsub'
  simp only [Bool.and_self] at hsub'
  exact (hsub'.eq_of_length ((inTurn_perm rs).filter _).length_eq.symm).symm

theorem firstAt_inTurn (rs : List Replacement) (s : Span) : firstAt (inTurn rs) s = firstAt rs s := by
  rw [firstAt, firstAt, ← List.head?_filter, ← List.head?_filter, filter_inTurn]

theorem firstAt_of_mem_kept : ∀ {rs : List Replacement} {made : Option Span} {a : Replacement},
    (∀ r ∈ rs, r.range.start ≤ r.range.stop) → (∀ last ∈ made, last.start ≤ last.stop) →
    a ∈ (choose made rs).1 → firstAt rs a.range = some a
  | [], _, _, _, _, ha => by cases ha
  | r :: rs, made, a, ho, hm, ha => by
    have hr := ho r List.mem_cons_self
    have ho' : ∀ x ∈ rs, x.range.start ≤ x.range.stop := fun x hx => ho x (.tail r hx)
    have hr' : ∀ last ∈ some r.range, last.start ≤ last.stop := by
      rintro last ⟨⟩
      exact hr
    rw [choose] at ha
    rw [firstAt]
    split at ha
    · rcases List.mem_cons.1 ha with rfl | ha
      · rw [List.find?_cons_of_pos (by simp)]
      · obtain ⟨-, hlast⟩ := choose_apart rs (some r.range) ho' hr'
        have hne : ¬ r.range = a.range := fun h => (hlast _ rfl a ha).2 h.symm
        rw [List.find?_cons_of_neg (by simpa using hne)]
        exact firstAt_of_mem_kept ho' hr' ha
    · next hfit =>
      have hne : ¬ r.range = a.range := by
        intro h
        apply hfit
        cases made with
        | none => rfl
        | some last =>
          obtain ⟨-, hlast⟩ := choose_apart rs (some last) ho' hm
          rw [fits_some (hm _ rfl) hr, h]
          exact hlast _ rfl a ha
      rw [List.find?_cons_of_neg (by simpa using hne)]
      exact firstAt_of_mem_kept ho' hm ha

theorem firstAt_of_mem_made {rs : List Replacement} {a : Replacement}
    (ho : ∀ r ∈ rs, r.range.start ≤ r.range.stop) (ha : a ∈ made rs) :
    firstAt rs a.range = some a := by
  rw [← firstAt_inTurn]
  exact firstAt_of_mem_kept (fun r hr => ho r ((inTurn_perm rs).subset hr)) (by simp) ha

/-- The spans of a batch are those of some replacements, each the first of the batch for its span. -/
structure Leads (rs es : List Replacement) : Prop where
  covers : ∀ r ∈ rs, ∃ e ∈ es, e.range = r.range
  first : ∀ e ∈ es, firstAt rs e.range = some e

/-- The order of a text, for replacements that stand apart. -/
def Follows (a b : Replacement) : Prop := Apart b a

/-- Of a batch whose leading replacements stand apart, it is these that are made. -/
theorem Leads.made_eq {rs es : List Replacement} (h : Leads rs es) (hp : es.Pairwise Follows)
    (ho : ∀ r ∈ rs, r.range.start ≤ r.range.stop) : made rs = es.reverse := by
  have hes : es.reverse.Pairwise Apart := List.pairwise_reverse.2 hp
  have hmem : ∀ a, a ∈ made rs ↔ a ∈ es.reverse := by
    intro a
    rw [List.mem_reverse]
    constructor
    · intro ha
      obtain ⟨e, he, hrange⟩ := h.covers a (mem_of_mem_made ha)
      have hfirst := h.first e he
      rw [hrange, firstAt_of_mem_made ho ha] at hfirst
      exact Option.some.inj hfirst ▸ he
    · intro ha
      have hrs : a ∈ rs := List.mem_of_find?_eq_some (h.first a ha)
      rcases List.mem_append.1 ((made_append_leftOut_perm rs).mem_iff.2 hrs) with hmade | hleft
      · exact hmade
      · -- what is made in its place has its span, so it is the same
        obtain ⟨b, hb, hov⟩ := overlaps_of_mem_leftOut ho hleft
        obtain ⟨e, he, hrange⟩ := h.covers b (mem_of_mem_made hb)
        have hbe : b = e := by
          have hfirst := h.first e he
          rw [hrange, firstAt_of_mem_made ho hb] at hfirst
          exact Option.some.inj hfirst
        subst hbe
        by_cases hab : a = b
        · exact hab ▸ hb
        · have hoa := ho a hrs
          have hob := ho b (mem_of_mem_made hb)
          have hno : a.range.overlaps b.range = false := by
            have hsymm : Std.Symm fun x y : Replacement => x.range.overlaps y.range = false :=
              ⟨fun x y h => by rw [overlaps_comm]; exact h⟩
            have hpw : es.Pairwise fun x y => x.range.overlaps y.range = false := by
              refine hp.imp_of_mem fun hx hy hxy => ?_
              rw [overlaps_comm]
              exact Apart.not_overlaps hxy (ho _ (List.mem_of_find?_eq_some (h.first _ hy)))
                (ho _ (List.mem_of_find?_eq_some (h.first _ hx)))
            exact hpw.forall ha he hab
          rw [hov] at hno
          cases hno
  have hnodup : ∀ {l : List Replacement}, l.Pairwise Apart → l.Nodup := fun hl =>
    hl.imp fun hab heq => hab.2 (congrArg _ heq)
  have hperm := (List.perm_ext_iff_of_nodup (hnodup (made_apart ho)) (hnodup hes)).2 hmem
  refine hperm.eq_of_pairwise (fun a b ha hb hab hba => ?_) (made_apart ho) hes
  have hoa := ho a (mem_of_mem_made ha)
  have hob := ho b (mem_of_mem_made ((hmem b).2 hb))
  refine absurd ?_ hab.2
  obtain ⟨⟨_, _⟩, _⟩ := a
  obtain ⟨⟨_, _⟩, _⟩ := b
  have h1 := hab.1
  have h2 := hba.1
  simp only [Span.mk.injEq] at *
  omega

end RouterShift.Edit
