import Mathlib.Data.List.Dedup
import Mathlib.Data.List.Perm.Basic
import RouterShift.Proofs.Markup.Migration

/-! Which replacements of a template get lost. An element that becomes an outlet and has no end tag
    has one put in where it ends, and several elements may end at one place; of the end tags that
    are put in there only one is made. Nothing else collides: if no element carries two outlet
    attributes, the replacements made are those of the batch with repeats left out, and every
    repeat is such an end tag (`replacements_lost`). -/

namespace RouterShift.Markup
open Text (byteLength)
open Edit (Addressable Apart Follows edits simultaneous made leftOut)

/-- The element carries at most one outlet attribute. -/
def Tag.HasOneView (t : Tag) : Prop :=
  (t.attributes.filter (·.name = Vocabulary.view)).length ≤ 1

instance (t : Tag) : Decidable t.HasOneView := inferInstanceAs (Decidable (_ ≤ _))

/-- Where an end tag is put in for the element, if one is. -/
def Tag.insertion? (t : Tag) : Option Nat :=
  if t.view?.isSome && t.endTag.isNone && !(t.selfClosing || t.isVoid) then some t.span.stop
  else none

/-- Where end tags are put in, element by element. -/
def insertions (nodes : List Node) : List Nat := (tagsAll nodes).filterMap Tag.insertion?

section
variable {t u : Tag} {r s : Replacement} {start stop : Nat} {tags : List Tag} {nodes : List Node}

/-! ### One element -/

/-- With one outlet attribute an element asks for nothing twice. -/
theorem Tag.HasOneView.kept_append_hosts (h : t.HasOneView) : t.kept ++ t.hosts = t.edits := by
  have hhosts : t.hosts = (t.attributes.filter (·.name = Vocabulary.view)).flatMap
      fun a => hostReplacements a.value t := by
    rw [Tag.hosts_eq]
    induction t.attributes with
    | nil => rfl
    | cons a more ih =>
      by_cases hview : a.name = Vocabulary.view
      · simp [hview, ih]
      · simp [hview, ih]
  have hview : t.view? =
      (t.attributes.filter (·.name = Vocabulary.view)).head?.map (·.value) := by
    rw [Tag.view?, List.head?_filter]
  rw [Tag.HasOneView] at h
  rw [Tag.kept, Tag.edits, hhosts, hview]
  generalize t.attributes.filter (·.name = Vocabulary.view) = views at h
  cases views with
  | nil => simp
  | cons a more =>
    cases more with
    | nil => simp
    | cons b more => simp at h

theorem Tag.Placed.owns_edits (ht : t.Placed) (hr : r ∈ t.edits) : t.Owns r := by
  rw [Tag.edits] at hr
  split at hr
  · exact ht.owns_host hr
  · exact ht.owns_inner hr

/-- The empty replacements of an element are the end tags put in for it. -/
theorem Tag.Placed.filter_isEmpty (ht : t.Placed) :
    t.edits.filter (·.range.isEmpty) =
      t.insertion?.toList.map (Replacement.insert · outletEnd) := by
  have hstart := ht.startTag_lt
  rw [Tag.edits, Tag.insertion?]
  cases hview : t.view? with
  | none =>
    rw [Option.isSome_none, Bool.false_and, Bool.false_and, if_neg Bool.false_ne_true]
    rw [Option.toList_none, List.map_nil, List.filter_eq_nil_iff]
    intro r hr hempty
    have hlt := (ht.inner hr).1
    rw [Span.isEmpty, beq_iff_eq] at hempty
    omega
  | some name =>
    have hfull : t.startTag.isEmpty = false := by
      rw [Span.isEmpty, beq_eq_false_iff_ne]
      omega
    simp only [hostReplacements, Option.isSome_some, Bool.true_and]
    cases hend : t.endTag with
    | some e =>
      have hlt := (ht.closed e hend).1
      have hfull' : e.span.isEmpty = false := by
        rw [Span.isEmpty, beq_eq_false_iff_ne]
        omega
      simp [hfull, hfull']
    | none =>
      by_cases hsingle : (t.selfClosing || t.isVoid) = true
      · simp [hsingle, hfull]
      · have hempty : (Replacement.insert t.span.stop outletEnd).range.isEmpty = true := beq_self_eq_true _
        simp [hsingle, hfull, hempty]

theorem Tag.Placed.nodup_edits (ht : t.Placed) : t.edits.Nodup := by
  have hbody := ht.body
  have hstart := ht.startTag_lt
  rw [Tag.edits]
  cases hview : t.view? with
  | none => exact ht.inner_pairwise.imp fun hne heq => hne (congrArg _ heq)
  | some name =>
    simp only [hostReplacements]
    cases hend : t.endTag with
    | some e =>
      have hstop : t.bodyStop = e.span.start := by rw [Tag.bodyStop, hend]
      refine List.nodup_cons.2 ⟨?_, List.nodup_singleton _⟩
      rw [List.mem_singleton, Replacement.mk.injEq]
      rintro ⟨heq, -⟩
      rw [heq] at hbody hstart
      omega
    | none =>
      have hstop : t.bodyStop = t.span.stop := by rw [Tag.bodyStop, hend]
      by_cases hsingle : (t.selfClosing || t.isVoid) = true
      · simp [hsingle]
      · simp only [hsingle]
        refine List.nodup_cons.2 ⟨?_, List.nodup_singleton _⟩
        rw [List.mem_singleton, Replacement.insert, Replacement.mk.injEq]
        rintro ⟨heq, -⟩
        have h1 := congrArg Span.start heq
        simp only at h1
        omega

/-! ### All elements -/

/-- What is asked for twice is an end tag that is put in. -/
theorem Layout.pairwise_edits (hl : Layout start stop tags) :
    (tags.flatMap Tag.edits).Pairwise fun r s => r = s → r.range.isEmpty = true := by
  rw [List.pairwise_flatMap]
  constructor
  · intro t ht
    exact (hl.placed t ht).nodup_edits.imp fun hne heq => absurd heq hne
  · refine hl.ordered.imp_of_mem fun {t u} ht hu hbefore r hr s hs heq => ?_
    have hr' := (hl.placed t ht).owns_edits hr
    have hs' := (hl.placed u hu).owns_edits hs
    rcases hbefore.apart (hl.placed t ht) (hl.placed u hu) hr' hs' with ⟨-, hempty⟩ | ⟨-, hne⟩
    · rw [Span.isEmpty, beq_iff_eq]
      exact hempty
    · exact absurd (congrArg _ heq) hne

theorem Layout.filter_isEmpty (hl : Layout start stop tags) :
    (tags.flatMap Tag.edits).filter (·.range.isEmpty) =
      (tags.filterMap Tag.insertion?).map (Replacement.insert · outletEnd) := by
  rw [List.filter_flatMap, List.filterMap_eq_flatMap_toList, List.map_flatMap]
  exact List.flatMap_congr fun t ht => (hl.placed t ht).filter_isEmpty

/-- Something is asked for twice exactly where two end tags are put in. -/
theorem Layout.nodup_edits_iff (hl : Layout start stop tags) :
    (tags.flatMap Tag.edits).Nodup ↔ (tags.filterMap Tag.insertion?).Nodup := by
  have hinj : Function.Injective fun p => Replacement.insert p outletEnd := by
    intro p q h
    simpa [Replacement.insert] using h
  rw [← List.nodup_map_iff hinj, ← hl.filter_isEmpty]
  constructor
  · intro h
    exact h.filter _
  · intro h
    rw [List.Nodup, List.pairwise_filter] at h
    refine h.imp₂ (fun {r s} hne hempty heq => ?_) hl.pairwise_edits
    exact hne (hempty heq) (heq ▸ hempty heq) heq

/-- The batch of a template in which no element carries two outlet attributes. -/
theorem Layout.replacements_perm (hl : Layout start stop (tagsAll nodes))
    (hone : ∀ t ∈ tagsAll nodes, t.HasOneView) :
    (replacements nodes).Perm ((tagsAll nodes).flatMap Tag.edits) := by
  rw [replacements_eq hl]
  refine (List.flatMap_append_perm _ _ _).trans ?_
  rw [List.flatMap_congr fun t ht => (hone t ht).kept_append_hosts]

end

/-! ### Written templates -/

section
variable {ws : List Written} {r s : Replacement}

theorem IsTemplate.addressable (h : IsTemplate ws) (hr : r ∈ replacements (nodesAll 0 ws)) :
    Addressable (charsAll ws) r.range := by
  obtain ⟨e, he, hrange⟩ := h.leads.covers r hr
  have haddr := @Edit.edits_addressable [] (piecesAll ws) [] e he
  rw [List.append_nil, List.nil_append, before_piecesAll] at haddr
  exact hrange ▸ haddr

/-- Different replacements of a template do not overlap. -/
theorem IsTemplate.not_overlaps (h : IsTemplate ws) (hr : r ∈ edits 0 (piecesAll ws))
    (hs : s ∈ edits 0 (piecesAll ws)) (hne : r ≠ s) : r.range.overlaps s.range = false := by
  have hsymm : Std.Symm fun a b : Replacement => a.range.overlaps b.range = false :=
    ⟨fun a b hab => by rw [Edit.overlaps_comm]; exact hab⟩
  have hpw : (edits 0 (piecesAll ws)).Pairwise fun a b => a.range.overlaps b.range = false := by
    refine (steadyAll ws h).follows.imp_of_mem fun {a b} ha hb hab => ?_
    rw [Edit.overlaps_comm]
    exact Apart.not_overlaps hab (Edit.edits_within hb).2.1 (Edit.edits_within ha).2.1
  exact hpw.forall hr hs hne

theorem IsTemplate.mem_replacements (h : IsTemplate ws)
    (hone : ∀ t ∈ tagsAll (nodesAll 0 ws), t.HasOneView) :
    r ∈ replacements (nodesAll 0 ws) ↔ r ∈ edits 0 (piecesAll ws) :=
  ((layoutAll ws h).replacements_perm hone).mem_iff.trans (mem_editsAll ws h r).symm

theorem IsTemplate.made_eq (h : IsTemplate ws) :
    made (replacements (nodesAll 0 ws)) = (edits 0 (piecesAll ws)).reverse :=
  h.leads.made_eq (steadyAll ws h).follows fun _ hr => (h.addressable hr).ordered

theorem IsTemplate.nodup_made (h : IsTemplate ws) : (made (replacements (nodesAll 0 ws))).Nodup := by
  have hpw := Edit.made_apart fun r (hr : r ∈ replacements (nodesAll 0 ws)) =>
    (h.addressable hr).ordered
  exact hpw.imp fun hab heq => hab.2 (congrArg _ heq)

/-- A replacement that is left out is an end tag, and the same one is made. -/
theorem IsTemplate.of_mem_leftOut (h : IsTemplate ws)
    (hone : ∀ t ∈ tagsAll (nodesAll 0 ws), t.HasOneView)
    (hs : s ∈ leftOut (replacements (nodesAll 0 ws))) :
    ∃ p ∈ insertions (nodesAll 0 ws), s = .insert p outletEnd := by
  have hl := layoutAll ws h
  have hperm := hl.replacements_perm hone
  have hparts := Edit.made_append_leftOut_perm (replacements (nodesAll 0 ws))
  obtain ⟨a, ha, hov⟩ := Edit.overlaps_of_mem_leftOut (fun r hr => (h.addressable hr).ordered) hs
  have hmem : s ∈ replacements (nodesAll 0 ws) := hparts.subset (List.mem_append_right _ hs)
  have hsa : s = a := by
    by_contra hne
    have ha' : a ∈ replacements (nodesAll 0 ws) := Edit.mem_of_mem_made ha
    rw [h.not_overlaps ((h.mem_replacements hone).1 hmem) ((h.mem_replacements hone).1 ha') hne]
      at hov
    cases hov
  -- `s` is in the batch twice, once made and once left out
  have hempty : s.range.isEmpty = true := by
    have htwice := hl.pairwise_edits.perm (hparts.trans hperm).symm
      fun {x y} hxy heq => heq ▸ hxy heq.symm
    exact (List.pairwise_append.1 htwice).2.2 s (hsa ▸ ha) s hs rfl
  have hfilter : s ∈ ((tagsAll (nodesAll 0 ws)).flatMap Tag.edits).filter (·.range.isEmpty) :=
    List.mem_filter.2 ⟨hperm.subset hmem, hempty⟩
  rw [hl.filter_isEmpty, List.mem_map] at hfilter
  obtain ⟨p, hp, rfl⟩ := hfilter
  exact ⟨p, hp, rfl⟩

/-- The batch collides exactly where two end tags are put in at one place. -/
theorem IsTemplate.pairwise_replacements_iff (h : IsTemplate ws)
    (hone : ∀ t ∈ tagsAll (nodesAll 0 ws), t.HasOneView) :
    (replacements (nodesAll 0 ws)).Pairwise (fun a b => a.range.overlaps b.range = false) ↔
      (insertions (nodesAll 0 ws)).Nodup := by
  have hl := layoutAll ws h
  rw [insertions, ← hl.nodup_edits_iff, ← (hl.replacements_perm hone).nodup_iff]
  constructor
  · intro hpw
    refine hpw.imp_of_mem fun {a b} ha hb hno heq => ?_
    have hord := (h.addressable ha).ordered
    rw [← heq, Edit.overlaps_eq_false hord hord] at hno
    exact hno.2 rfl
  · intro hnodup
    exact hnodup.imp_of_mem fun ha hb hne =>
      h.not_overlaps ((h.mem_replacements hone).1 ha) ((h.mem_replacements hone).1 hb) hne

end

/-- What becomes of the batch of a template in which no element carries two outlet attributes. It
    can be made; each of its replacements is made, and once; what is left out of it are end tags
    put in at one place with another; and the new text is the old one with the batch without its
    repeats made all at once. Spans overlap only if two end tags are put in at one place. If there
    are no two, then nothing is left out and all of the batch is made. -/
theorem replacements_lost {text : String} {nodes : List Node} (h : parse text = .ok nodes)
    (hone : ∀ t ∈ tagsAll nodes, t.HasOneView) :
    ∃ out, applyEdits text (replacements nodes) = .ok out ∧
      out.applied.Perm (replacements nodes).dedup ∧
      (∀ s ∈ out.skipped, ∃ p ∈ insertions nodes, s = .insert p outletEnd) ∧
      simultaneous text.toList (replacements nodes).dedup = some out.text.toList ∧
      ((replacements nodes).Pairwise (fun a b => a.range.overlaps b.range = false) ↔
        (insertions nodes).Nodup) ∧
      ((insertions nodes).Nodup → out.skipped = [] ∧ out.applied.Perm (replacements nodes) ∧
        simultaneous text.toList (replacements nodes) = some out.text.toList) := by
  obtain ⟨ws, hws, htext, rfl⟩ := parse_eq_ok_iff.1 h
  have haddr : ∀ r ∈ replacements (nodesAll 0 ws), Addressable text.toList r.range :=
    fun r hr => htext ▸ hws.addressable hr
  have hord := fun r hr => (haddr r hr).ordered
  have happart := Edit.made_apart hord
  have hpw := hws.pairwise_replacements_iff hone
  have hmade : (replacements (nodesAll 0 ws)).dedup.Perm (made (replacements (nodesAll 0 ws))) := by
    rw [List.perm_ext_iff_of_nodup (List.nodup_dedup _) hws.nodup_made]
    intro r
    rw [List.mem_dedup, hws.mem_replacements hone, hws.made_eq, List.mem_reverse]
  have hsim := (Edit.cutInPlace_made haddr).2
  rw [← Edit.simultaneous_perm hmade happart] at hsim
  refine ⟨_, Edit.applyEdits_eq haddr, hmade.symm, fun s hs => hws.of_mem_leftOut hone hs, ?_, hpw, ?_⟩
  · rw [String.toList_ofList]
    exact hsim
  · intro hnodup
    have hdistinct := hpw.2 hnodup
    have hskip := Edit.leftOut_eq_nil hord hdistinct
    have hall := Edit.made_append_leftOut_perm (replacements (nodesAll 0 ws))
    rw [hskip, List.append_nil] at hall
    refine ⟨hskip, hall, ?_⟩
    rw [Edit.simultaneous_perm hall.symm happart, String.toList_ofList]
    exact (Edit.cutInPlace_made haddr).2

/-- Elements that end at two places, one inside an outlet with end tags of its own. -/
theorem replacements_lost_apart :
    ∃ nodes, parse "<ul ui-view><li ui-view=a>b</ul><p ui-view><a uiSref>" = .ok nodes ∧
      (∀ t ∈ tagsAll nodes, t.HasOneView) ∧ (insertions nodes).Nodup ∧
      ∃ out, applyEdits "<ul ui-view><li ui-view=a>b</ul><p ui-view><a uiSref>"
          (replacements nodes) = .ok out ∧
        out.skipped = [] ∧ out.applied.Perm (replacements nodes) := by
  have hparse := @parse_parseOrEmpty "<ul ui-view><li ui-view=a>b</ul><p ui-view><a uiSref>"
    (by decide +kernel)
  have hone : ∀ t ∈ tagsAll (parseOrEmpty "<ul ui-view><li ui-view=a>b</ul><p ui-view><a uiSref>"),
      t.HasOneView := by decide +kernel
  have hnodup : (insertions
      (parseOrEmpty "<ul ui-view><li ui-view=a>b</ul><p ui-view><a uiSref>")).Nodup := by
    decide +kernel
  obtain ⟨out, hout, -, -, -, -, hall⟩ := replacements_lost hparse hone
  obtain ⟨hskip, hperm, -⟩ := hall hnodup
  exact ⟨_, hparse, hone, hnodup, out, hout, hskip, hperm⟩

/-- Two elements that end together at the end of the text: of the end tags put in for them one is
    left out, and the migrated text opens two outlets and closes one. -/
theorem replacements_collide :
    ∃ nodes out, parse "<p ui-view><b ui-view>" = .ok nodes ∧ (∀ t ∈ tagsAll nodes, t.HasOneView) ∧
      ¬ (replacements nodes).Pairwise (fun a b => a.range.overlaps b.range = false) ∧
      applyEdits "<p ui-view><b ui-view>" (replacements nodes) = .ok out ∧
      out.skipped = [.insert 22 outletEnd] ∧
      out.text = "<router-outlet><router-outlet></router-outlet>" := by
  have hparse := @parse_parseOrEmpty "<p ui-view><b ui-view>" (by decide +kernel)
  have hbatch : replacements (parseOrEmpty "<p ui-view><b ui-view>") =
      [⟨⟨0, 11⟩, "<router-outlet>"⟩, ⟨⟨22, 22⟩, "</router-outlet>"⟩,
        ⟨⟨11, 22⟩, "<router-outlet>"⟩, ⟨⟨22, 22⟩, "</router-outlet>"⟩] := by decide +kernel
  have hsort : [⟨⟨0, 11⟩, "<router-outlet>"⟩, ⟨⟨22, 22⟩, "</router-outlet>"⟩,
        ⟨⟨11, 22⟩, "<router-outlet>"⟩, ⟨⟨22, 22⟩, "</router-outlet>"⟩].mergeSort Edit.isBefore =
      [⟨⟨22, 22⟩, "</router-outlet>"⟩, ⟨⟨22, 22⟩, "</router-outlet>"⟩,
        ⟨⟨11, 22⟩, "<router-outlet>"⟩, ⟨⟨0, 11⟩, "<router-outlet>"⟩] := by
    simp [List.mergeSort, List.MergeSort.Internal.splitInTwo, Edit.isBefore]
  refine ⟨_, ⟨"<router-outlet><router-outlet></router-outlet>",
    [⟨⟨22, 22⟩, "</router-outlet>"⟩, ⟨⟨11, 22⟩, "<router-outlet>"⟩, ⟨⟨0, 11⟩, "<router-outlet>"⟩],
    [⟨⟨22, 22⟩, "</router-outlet>"⟩]⟩, hparse, by decide +kernel, by decide +kernel, ?_, by decide, rfl⟩
  rw [hbatch]
  simp only [applyEdits, hsort]
  rfl

end RouterShift.Markup
