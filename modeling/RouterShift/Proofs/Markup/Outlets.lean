import RouterShift.Markup.Migration
import RouterShift.Proofs.Edit.Pieces
import RouterShift.Proofs.Markup.Lossless

/-! What a migration replaces, element by element. The walk visits the elements of a template in the
    order of their start tags, and an element either becomes an outlet, which replaces its tags
    whole, or has its name and attributes replaced one by one. The places of two elements never
    meet, but for the end tags that are put in where several elements end at once, so the batch is
    led by what each element on its own would ask for. -/

namespace RouterShift.Markup
open Text (byteLength byteLength_append)
open Edit (Leads firstAt)

mutual
/-- The elements of a node, parents before children. -/
def Node.tags : Node → List Tag
  | .text _ => []
  | .comment _ => []
  | .element tag children => tag :: tagsAll children
  | .expansion _ _ cases => tagsCases cases

def tagsAll : List Node → List Tag
  | [] => []
  | node :: rest => node.tags ++ tagsAll rest

def tagsCases : List Case → List Tag
  | [] => []
  | .mk _ _ children :: rest => tagsAll children ++ tagsCases rest
end

/-- The visits of one element. -/
def Tag.visits (t : Tag) : List Visit := .element t :: t.attributes.map (Visit.attr · t)

mutual
theorem Node.visits_eq : ∀ node : Node, node.visits = node.tags.flatMap Tag.visits
  | .text _ => by rw [Node.visits, Node.tags]; rfl
  | .comment _ => by rw [Node.visits, Node.tags]; rfl
  | .element tag children => by
    rw [Node.visits, Node.tags, List.flatMap_cons, visitAll_eq children]
    rfl
  | .expansion _ _ cases => by rw [Node.visits, Node.tags, visitCases_eq cases]

theorem visitAll_eq : ∀ nodes : List Node, visitAll nodes = (tagsAll nodes).flatMap Tag.visits
  | [] => by rw [visitAll, tagsAll]; rfl
  | node :: rest => by
    rw [visitAll, tagsAll, List.flatMap_append, node.visits_eq, visitAll_eq rest]

theorem visitCases_eq : ∀ cases : List Case, visitCases cases = (tagsCases cases).flatMap Tag.visits
  | [] => by rw [visitCases, tagsCases]; rfl
  | .mk _ _ children :: rest => by
    rw [visitCases, tagsCases, List.flatMap_append, visitAll_eq children, visitCases_eq rest]
end

/-! ### One element -/

/-- The name of the outlet an element becomes: the value of its first outlet attribute. -/
def Tag.view? (t : Tag) : Option String :=
  (t.attributes.find? (·.name = Vocabulary.view)).map (·.value)

/-- What replaces the tags of an element whole, for each of its outlet attributes. -/
def Tag.hosts (t : Tag) : List Replacement := t.visits.flatMap Visit.hosts

/-- What replaces names and attributes of an element. -/
def Tag.inner (t : Tag) : List Replacement := t.visits.flatMap Visit.replacements

/-- What an element on its own would ask for. -/
def Tag.edits (t : Tag) : List Replacement :=
  match t.view? with
  | some name => hostReplacements name t
  | none => t.inner

def Tag.renamings (t : Tag) : List Replacement :=
  if t.name ∈ Vocabulary.outletTags then
    ⟨t.nameSpan, Vocabulary.routerOutlet⟩
      :: (t.endTag.map fun e => ⟨e.nameSpan, Vocabulary.routerOutlet⟩).toList
  else []

def Attribute.translations (a : Attribute) : List Replacement :=
  if a.name = Vocabulary.view then []
  else ((translateAttribute? a).map fun text => ⟨a.span, text⟩).toList

theorem Tag.inner_eq (t : Tag) :
    t.inner = t.renamings ++ t.attributes.flatMap Attribute.translations := by
  rw [inner, visits, List.flatMap_cons, List.flatMap_map]
  rfl

theorem Tag.hosts_eq (t : Tag) : t.hosts = t.attributes.flatMap fun a =>
    if a.name = Vocabulary.view then hostReplacements a.value t else [] := by
  rw [hosts, visits, List.flatMap_cons, List.flatMap_map]
  rfl

/-- The spans of an outlet do not depend on its name. -/
theorem range_hostReplacements (name name' : String) (t : Tag) :
    (hostReplacements name t).map (·.range) = (hostReplacements name' t).map (·.range) := by
  rw [hostReplacements, hostReplacements]
  split
  · rfl
  · split <;> rfl

theorem Tag.view?_eq_none {t : Tag} (h : t.view? = none) : t.hosts = [] := by
  rw [Tag.hosts_eq, List.flatMap_eq_nil_iff]
  intro a ha
  rw [view?, Option.map_eq_none_iff, List.find?_eq_none] at h
  have := h a ha
  rw [if_neg (by simpa using this)]

/-- The first outlet attribute has its say first. -/
theorem Tag.view?_eq_some {t : Tag} {name : String} (h : t.view? = some name) :
    ∃ more, t.hosts = hostReplacements name t ++ more ∧
      ∀ r ∈ more, ∃ e ∈ hostReplacements name t, e.range = r.range := by
  rw [view?, Option.map_eq_some_iff] at h
  obtain ⟨a, ha, rfl⟩ := h
  obtain ⟨hview, front, back, hattrs, hfront⟩ := List.find?_eq_some_iff_append.1 ha
  have hview' : a.name = Vocabulary.view := by simpa using hview
  have hnone : (front.flatMap fun a =>
      if a.name = Vocabulary.view then hostReplacements a.value t else []) = [] := by
    rw [List.flatMap_eq_nil_iff]
    intro b hb
    have := hfront b hb
    rw [if_neg (by simpa using this)]
  rw [Tag.hosts_eq, hattrs, List.flatMap_append, List.flatMap_cons, hnone, if_pos hview']
  refine ⟨_, rfl, fun r hr => ?_⟩
  obtain ⟨b, -, hr⟩ := List.mem_flatMap.1 hr
  split at hr
  · have hmem : r.range ∈ (hostReplacements a.value t).map (·.range) := by
      rw [range_hostReplacements a.value b.value]
      exact List.mem_map_of_mem hr
    obtain ⟨e, he, hrange⟩ := List.mem_map.1 hmem
    exact ⟨e, he, hrange⟩
  · cases hr

/-! ### Places -/

/-- The parts of an element lie where an element has them. -/
structure Tag.Placed (t : Tag) : Prop where
  start : t.span.start = t.startTag.start
  inOrder : InOrder t.startTag.start t.startTag.stop (t.nameSpan :: t.attributes.map Attribute.span)
  body : t.startTag.stop ≤ t.bodyStop
  stop : t.bodyStop ≤ t.span.stop
  closed : ∀ e ∈ t.endTag, e.span.start < e.span.stop ∧ e.span.stop = t.span.stop ∧
    e.span.contains e.nameSpan = true ∧
      (t.name ∈ Vocabulary.outletTags → e.nameSpan.start < e.nameSpan.stop)
  single : (t.selfClosing || t.isVoid) = true → t.endTag = none

/-- An element stands before another one, which may be inside of it. -/
def Tag.Before (t u : Tag) : Prop :=
  t.span.stop ≤ u.span.start ∨ (t.startTag.stop ≤ u.span.start ∧ u.span.stop ≤ t.bodyStop)

/-- Elements in the order of their start tags, all between `start` and `stop`. -/
structure Layout (start stop : Nat) (tags : List Tag) : Prop where
  placed : ∀ t ∈ tags, t.Placed
  within : ∀ t ∈ tags, start ≤ t.span.start ∧ t.span.stop ≤ stop
  ordered : tags.Pairwise Tag.Before

/-- A replacement in a tag of an element, or an end tag put in where the element ends. -/
inductive Tag.Owns (t : Tag) : Replacement → Prop
  | start (r : Replacement) (hne : r.range.start < r.range.stop)
    (h : t.startTag.contains r.range = true) : Tag.Owns t r
  | stop (r : Replacement) (e : EndTag) (he : e ∈ t.endTag) (hne : r.range.start < r.range.stop)
    (h : e.span.contains r.range = true) : Tag.Owns t r
  | inserted (h : t.endTag = none) : Tag.Owns t (.insert t.span.stop outletEnd)

theorem contains_iff {s t : Span} : s.contains t = true ↔ s.start ≤ t.start ∧ t.stop ≤ s.stop := by
  simp [Span.contains]

theorem InOrder.within : ∀ {start stop : Nat} {spans : List Span}, InOrder start stop spans →
    ∀ s ∈ spans, start ≤ s.start ∧ s.start < s.stop ∧ s.stop ≤ stop
  | _, _, [], _, s, hs => by cases hs
  | _, _, x :: spans, ⟨h1, h2, h3⟩, s, hs => by
    rcases List.mem_cons.1 hs with rfl | hs
    · exact ⟨h1, h2, h3.le⟩
    · obtain ⟨g1, g2, g3⟩ := h3.within s hs
      exact ⟨by omega, g2, g3⟩

theorem InOrder.pairwise : ∀ {start stop : Nat} {spans : List Span}, InOrder start stop spans →
    spans.Pairwise fun a b => a.stop ≤ b.start
  | _, _, [], _ => .nil
  | _, _, _ :: _, ⟨_, _, h3⟩ => .cons (fun s hs => (h3.within s hs).1) h3.pairwise

section
variable {t u : Tag} {r s : Replacement}

theorem Tag.Placed.startTag_lt (ht : t.Placed) : t.startTag.start < t.startTag.stop := by
  obtain ⟨h1, h2, h3⟩ := ht.inOrder.within t.nameSpan List.mem_cons_self
  omega

theorem Tag.Placed.owns_host (ht : t.Placed) {name : String} (hr : r ∈ hostReplacements name t) :
    t.Owns r := by
  rw [hostReplacements] at hr
  have hstart : t.startTag.contains t.startTag = true := contains_iff.2 ⟨Nat.le_refl _, Nat.le_refl _⟩
  split at hr
  · next e he =>
    rcases List.mem_cons.1 hr with rfl | hr
    · exact .start _ ht.startTag_lt hstart
    · obtain rfl := List.mem_singleton.1 hr
      exact .stop _ e he (ht.closed e he).1 (contains_iff.2 ⟨Nat.le_refl _, Nat.le_refl _⟩)
  · next he =>
    split at hr
    · obtain rfl := List.mem_singleton.1 hr
      exact .start _ ht.startTag_lt hstart
    · rcases List.mem_cons.1 hr with rfl | hr
      · exact .start _ ht.startTag_lt hstart
      · obtain rfl := List.mem_singleton.1 hr
        exact .inserted he

theorem Tag.Placed.owns_hosts (ht : t.Placed) (hr : r ∈ t.hosts) : t.Owns r := by
  rw [Tag.hosts_eq] at hr
  obtain ⟨a, -, hr⟩ := List.mem_flatMap.1 hr
  split at hr
  · exact ht.owns_host hr
  · cases hr

theorem range_of_mem_translations {a : Attribute} (hr : r ∈ a.translations) : r.range = a.span := by
  rw [Attribute.translations] at hr
  split at hr
  · cases hr
  · simp only [Option.mem_toList, Option.map_eq_some_iff] at hr
    obtain ⟨text, -, rfl⟩ := hr
    rfl

theorem range_of_mem_renamings (hr : r ∈ t.renamings) : t.name ∈ Vocabulary.outletTags ∧
    (r.range = t.nameSpan ∨ ∃ e ∈ t.endTag, r.range = e.nameSpan) := by
  rw [Tag.renamings] at hr
  split at hr
  · next hname =>
    rcases List.mem_cons.1 hr with rfl | hr
    · exact ⟨hname, .inl rfl⟩
    · simp only [Option.mem_toList, Option.map_eq_some_iff] at hr
      obtain ⟨e, he, rfl⟩ := hr
      exact ⟨hname, .inr ⟨e, he, rfl⟩⟩
  · cases hr

/-- A replaced name or attribute is never empty and lies within a tag. -/
theorem Tag.Placed.inner (ht : t.Placed) (hr : r ∈ t.inner) : r.range.start < r.range.stop ∧
    (t.startTag.contains r.range = true ∨ ∃ e ∈ t.endTag, e.span.contains r.range = true) := by
  rw [Tag.inner_eq] at hr
  have hspans := ht.inOrder.within
  rcases List.mem_append.1 hr with hr | hr
  · obtain ⟨hname, hrange | ⟨e, he, hrange⟩⟩ := range_of_mem_renamings hr
    · obtain ⟨h1, h2, h3⟩ := hspans t.nameSpan List.mem_cons_self
      rw [hrange]
      exact ⟨h2, .inl (contains_iff.2 ⟨h1, h3⟩)⟩
    · obtain ⟨-, -, hin, hne⟩ := ht.closed e he
      rw [hrange]
      exact ⟨hne hname, .inr ⟨e, he, hin⟩⟩
  · obtain ⟨a, ha, hr⟩ := List.mem_flatMap.1 hr
    obtain ⟨h1, h2, h3⟩ := hspans a.span (List.mem_cons_of_mem _ (List.mem_map_of_mem ha))
    rw [range_of_mem_translations hr]
    exact ⟨h2, .inl (contains_iff.2 ⟨h1, h3⟩)⟩

theorem Tag.Placed.owns_inner (ht : t.Placed) (hr : r ∈ t.inner) : t.Owns r := by
  obtain ⟨hne, h | ⟨e, he, h⟩⟩ := ht.inner hr
  · exact .start r hne h
  · exact .stop r e he hne h

/-- Where the replacements of an element are: outside of its body, and empty only if put in. -/
theorem Tag.Owns.spec (h : t.Owns r) (ht : t.Placed) :
    t.span.start ≤ r.range.start ∧ t.span.start < r.range.stop ∧ r.range.stop ≤ t.span.stop ∧
      (r.range.stop ≤ t.startTag.stop ∨ t.bodyStop ≤ r.range.start) ∧
        (r.range.start < r.range.stop ∨ r = .insert t.span.stop outletEnd) := by
  have h1 := ht.start
  have h2 := ht.body
  have h3 := ht.stop
  have h4 := ht.startTag_lt
  cases h with
  | start _ hne hin =>
    rw [contains_iff] at hin
    omega
  | stop _ e he hne hin =>
    rw [contains_iff] at hin
    have hbody : t.bodyStop = e.span.start := by rw [Tag.bodyStop, Option.mem_def.1 he]
    have hclosed := ht.closed e he
    omega
  | inserted he =>
    have hbody : t.bodyStop = t.span.stop := by rw [Tag.bodyStop, he]
    have hrange : (Replacement.insert t.span.stop outletEnd).range = ⟨t.span.stop, t.span.stop⟩ := rfl
    rw [hrange, hbody]
    exact ⟨by simp only; omega, by simp only; omega, Nat.le_refl _, .inr (Nat.le_refl _), .inr rfl⟩

/-- Replacements of two elements do not meet, unless both are end tags put in at one place. -/
theorem Tag.Before.apart (h : t.Before u) (ht : t.Placed) (hu : u.Placed) (hr : t.Owns r)
    (hs : u.Owns s) : (r = s ∧ r.range.start = r.range.stop) ∨
      ((r.range.stop ≤ s.range.start ∨ s.range.stop ≤ r.range.start) ∧ r.range ≠ s.range) := by
  obtain ⟨r1, r2, r3, r4, r5⟩ := hr.spec ht
  obtain ⟨s1, s2, s3, s4, s5⟩ := hs.spec hu
  have ht2 := ht.body
  have ht3 := ht.stop
  have hside : r.range.stop ≤ s.range.start ∨ s.range.stop ≤ r.range.start := by
    rcases h with h | h <;> omega
  by_cases hrange : r.range = s.range
  · -- both are empty then, so both were put in
    rcases r5 with r5 | rfl
    · rw [← hrange] at hside
      omega
    · rcases s5 with s5 | rfl
      · rw [hrange] at hside
        omega
      · have hstop : t.span.stop = u.span.stop := by simpa [Replacement.insert] using hrange
        rw [hstop]
        exact .inl ⟨rfl, rfl⟩
  · exact .inr ⟨hside, hrange⟩

end

/-! ### All elements -/

section
variable {start stop : Nat} {tags : List Tag} {nodes : List Node} {t u : Tag} {r s : Replacement}

/-- What two replacements are to each other that different elements ask for. -/
theorem Layout.apart (hl : Layout start stop tags) (ht : t ∈ tags) (hu : u ∈ tags) (hne : t ≠ u)
    (hr : t.Owns r) (hs : u.Owns s) : (r = s ∧ r.range.start = r.range.stop) ∨
      ((r.range.stop ≤ s.range.start ∨ s.range.stop ≤ r.range.start) ∧ r.range ≠ s.range) := by
  have hsymm : Std.Symm fun a b : Tag => a.Before b ∨ b.Before a := ⟨fun a b h => h.symm⟩
  have hpw : tags.Pairwise fun a b => a.Before b ∨ b.Before a := hl.ordered.imp .inl
  rcases hpw.forall ht hu hne with h | h
  · exact h.apart (hl.placed t ht) (hl.placed u hu) hr hs
  · rcases h.apart (hl.placed u hu) (hl.placed t ht) hs hr with ⟨rfl, hempty⟩ | ⟨hside, hrange⟩
    · exact .inl ⟨rfl, hempty⟩
    · exact .inr ⟨hside.symm, hrange.symm⟩

/-- What is left to be replaced within an element: all of it, or nothing if its tags are replaced. -/
def Tag.kept (t : Tag) : List Replacement := if t.view?.isSome then [] else t.inner

/-- Exactly what is inside the tags of outlets is left out. -/
theorem Layout.filter_inner (hl : Layout start stop tags) :
    (tags.flatMap Tag.inner).filter (fun r =>
      !(tags.flatMap Tag.hosts).any fun host => host.range.contains r.range) =
        tags.flatMap Tag.kept := by
  rw [List.filter_flatMap]
  refine List.flatMap_congr fun t ht => ?_
  have hplaced := hl.placed t ht
  cases hview : t.view? with
  | none =>
    rw [Tag.kept, hview, Option.isSome_none, if_neg Bool.false_ne_true, List.filter_eq_self]
    intro r hr
    rw [Bool.not_eq_true', List.any_eq_false]
    intro host hhost hcontains
    rw [contains_iff] at hcontains
    obtain ⟨u, hu, hhost⟩ := List.mem_flatMap.1 hhost
    have hne : t ≠ u := by
      rintro rfl
      rw [Tag.view?_eq_none hview] at hhost
      cases hhost
    have hr' := (hplaced.inner hr).1
    rcases hl.apart ht hu hne (hplaced.owns_inner hr) ((hl.placed u hu).owns_hosts hhost) with
      ⟨rfl, hempty⟩ | ⟨hside, -⟩
    · omega
    · omega
  | some name =>
    rw [Tag.kept, hview, Option.isSome_some, if_pos rfl, List.filter_eq_nil_iff]
    intro r hr
    rw [Bool.not_eq_true', Bool.not_eq_false, List.any_eq_true]
    obtain ⟨more, hhosts, -⟩ := Tag.view?_eq_some hview
    have hmem : ∀ host ∈ hostReplacements name t, host ∈ tags.flatMap Tag.hosts := by
      intro host hhost
      exact List.mem_flatMap.2 ⟨t, ht, hhosts ▸ List.mem_append_left _ hhost⟩
    obtain ⟨-, hin | ⟨e, he, hin⟩⟩ := hplaced.inner hr
    · obtain ⟨host, hhost, hrange⟩ : ∃ host ∈ hostReplacements name t, host.range = t.startTag := by
        rw [hostReplacements]
        split
        · exact ⟨_, List.mem_cons_self, rfl⟩
        · split <;> exact ⟨_, List.mem_cons_self, rfl⟩
      exact ⟨host, hmem host hhost, hrange ▸ hin⟩
    · refine ⟨⟨e.span, outletEnd⟩, hmem _ ?_, hin⟩
      rw [hostReplacements, Option.mem_def.1 he]
      exact List.mem_cons_of_mem _ List.mem_cons_self

theorem find?_eq_some_of_forall {α : Type} {p : α → Bool} {a : α} : ∀ {l : List α}, a ∈ l →
    p a = true → (∀ b ∈ l, p b = true → b = a) → l.find? p = some a
  | [], ha, _, _ => by cases ha
  | b :: l, ha, hp, h => by
    by_cases hb : p b = true
    · rw [List.find?_cons_of_pos hb, h b List.mem_cons_self hb]
    · rw [List.find?_cons_of_neg hb]
      rcases List.mem_cons.1 ha with rfl | ha
      · exact absurd hp hb
      · exact find?_eq_some_of_forall ha hp fun c hc => h c (List.mem_cons_of_mem b hc)

/-- The attributes of an element stand behind its name, in the start tag. -/
theorem Tag.Placed.attribute (ht : t.Placed) {a : Attribute} (ha : a ∈ t.attributes) :
    t.nameSpan.stop ≤ a.span.start ∧ a.span.start < a.span.stop ∧ a.span.stop ≤ t.startTag.stop :=
  ht.inOrder.2.2.within a.span (List.mem_map_of_mem ha)

theorem Tag.Placed.endName (ht : t.Placed) {e : EndTag} (he : e ∈ t.endTag) :
    t.startTag.stop ≤ e.nameSpan.start := by
  have hbody : t.bodyStop = e.span.start := by rw [Tag.bodyStop, Option.mem_def.1 he]
  have hin := contains_iff.1 (ht.closed e he).2.2.1
  have := ht.body
  omega

theorem Tag.Placed.renamings_pairwise (ht : t.Placed) :
    t.renamings.Pairwise fun a b => a.range ≠ b.range := by
  have hname := ht.inOrder.within t.nameSpan List.mem_cons_self
  rw [Tag.renamings]
  split
  · cases he : t.endTag with
    | none => exact List.pairwise_singleton _ _
    | some e =>
      refine List.pairwise_pair.2 fun heq => ?_
      have h1 := ht.endName he
      have h2 := congrArg Span.start heq
      simp only at h2
      omega
  · exact .nil

theorem Tag.Placed.translations_pairwise (ht : t.Placed) :
    (t.attributes.flatMap Attribute.translations).Pairwise fun a b => a.range ≠ b.range := by
  rw [List.pairwise_flatMap]
  refine ⟨fun a ha => ?_, ?_⟩
  · rw [Attribute.translations]
    split
    · exact .nil
    · cases translateAttribute? a with
      | none => exact .nil
      | some text => exact List.pairwise_singleton _ _
  · have hpw : t.attributes.Pairwise fun a b => a.span.stop ≤ b.span.start :=
      List.pairwise_map.1 ht.inOrder.2.2.pairwise
    refine hpw.imp_of_mem fun {a b} ha hb hab x hx y hy heq => ?_
    rw [range_of_mem_translations hx, range_of_mem_translations hy] at heq
    have := ht.attribute ha
    rw [heq] at hab this
    omega

/-- No place within an element is replaced twice. -/
theorem Tag.Placed.inner_pairwise (ht : t.Placed) :
    t.inner.Pairwise fun a b => a.range ≠ b.range := by
  have hname := ht.inOrder.within t.nameSpan List.mem_cons_self
  rw [Tag.inner_eq, List.pairwise_append]
  refine ⟨ht.renamings_pairwise, ht.translations_pairwise, fun x hx y hy heq => ?_⟩
  obtain ⟨a, ha, hy⟩ := List.mem_flatMap.1 hy
  have hattr := ht.attribute ha
  rw [← range_of_mem_translations hy, ← heq] at hattr
  obtain ⟨-, hx | ⟨e, he, hx⟩⟩ := range_of_mem_renamings hx
  · rw [hx] at hattr
    omega
  · have := ht.endName he
    rw [hx] at hattr
    omega

theorem Tag.mem_inner_of_kept (hr : r ∈ t.kept) : t.view? = none ∧ r ∈ t.inner := by
  rw [Tag.kept] at hr
  split at hr
  · cases hr
  · next hview => exact ⟨Option.not_isSome_iff_eq_none.1 hview, hr⟩

theorem Layout.firstAt_kept (hl : Layout start stop tags) (hr : r ∈ tags.flatMap Tag.kept) :
    firstAt (tags.flatMap Tag.kept) r.range = some r := by
  refine find?_eq_some_of_forall hr (by simp) fun b hb hrange => ?_
  have hrange : b.range = r.range := by simpa using hrange
  obtain ⟨t, ht, hr⟩ := List.mem_flatMap.1 hr
  obtain ⟨u, hu, hb⟩ := List.mem_flatMap.1 hb
  have hr := (Tag.mem_inner_of_kept hr).2
  have hb := (Tag.mem_inner_of_kept hb).2
  by_cases htu : t = u
  · subst htu
    by_contra hne
    have hsymm : Std.Symm fun a b : Replacement => a.range ≠ b.range := ⟨fun _ _ h => h.symm⟩
    exact (hl.placed t ht).inner_pairwise.forall hb hr hne hrange
  · rcases hl.apart ht hu htu ((hl.placed t ht).owns_inner hr)
      ((hl.placed u hu).owns_inner hb) with ⟨heq, -⟩ | ⟨-, hne⟩
    · exact heq.symm
    · exact absurd hrange.symm hne

/-- What replaces the tags of one element has two places at most. -/
theorem Tag.Placed.firstAt_host (ht : t.Placed) {name : String} (hr : r ∈ hostReplacements name t) :
    firstAt (hostReplacements name t) r.range = some r := by
  have hbody := ht.body
  have hlt := ht.startTag_lt
  rw [hostReplacements] at hr ⊢
  split at hr
  · next e he =>
    have hstop : t.bodyStop = e.span.start := by rw [Tag.bodyStop, he]
    have hne : ¬ t.startTag = e.span := by
      intro heq
      have := congrArg Span.start heq
      omega
    rcases List.mem_cons.1 hr with rfl | hr
    · simp [firstAt]
    · obtain rfl := List.mem_singleton.1 hr
      simp [firstAt, hne]
  · next he =>
    have hstop : t.bodyStop = t.span.stop := by rw [Tag.bodyStop, he]
    have hne : ¬ t.startTag = ⟨t.span.stop, t.span.stop⟩ := by
      intro heq
      have := congrArg Span.start heq
      simp only at this
      omega
    split at hr
    · next hsingle =>
      obtain rfl := List.mem_singleton.1 hr
      simp [firstAt, hsingle]
    · next hsingle =>
      rcases List.mem_cons.1 hr with rfl | hr
      · simp [firstAt, hsingle]
      · obtain rfl := List.mem_singleton.1 hr
        simp [firstAt, hsingle, hne, Replacement.insert]

theorem Layout.firstAt_hosts (hl : Layout start stop tags) (ht : t ∈ tags) {name : String}
    (hview : t.view? = some name) (hr : r ∈ hostReplacements name t) :
    firstAt (tags.flatMap Tag.hosts) r.range = some r := by
  obtain ⟨more, hhosts, -⟩ := Tag.view?_eq_some hview
  have hown : firstAt t.hosts r.range = some r := by
    rw [hhosts, firstAt, List.find?_append]
    have := (hl.placed t ht).firstAt_host hr
    rw [firstAt] at this
    rw [this, Option.some_or]
  have hany : ∀ u ∈ tags, ∀ s, firstAt u.hosts r.range = some s → s = r := by
    intro u hu s hs
    by_cases htu : t = u
    · subst htu
      rw [hown] at hs
      exact (Option.some.inj hs).symm
    · have hmem := List.mem_of_find?_eq_some hs
      have hrange : s.range = r.range := by simpa using List.find?_some hs
      rcases hl.apart ht hu htu ((hl.placed t ht).owns_host hr)
        ((hl.placed u hu).owns_hosts hmem) with ⟨heq, -⟩ | ⟨-, hne⟩
      · exact heq.symm
      · exact absurd hrange.symm hne
  rw [firstAt, List.find?_flatMap]
  cases hfind : tags.findSome? fun u => u.hosts.find? (·.range = r.range) with
  | none =>
    rw [List.findSome?_eq_none_iff] at hfind
    have := hfind t ht
    rw [firstAt] at hown
    rw [hown] at this
    cases this
  | some s =>
    obtain ⟨u, hu, hs⟩ := List.exists_of_findSome?_eq_some hfind
    rw [hany u hu s hs]

/-- What is left of the elements has no place in common with what replaces their tags. -/
theorem Layout.find?_kept_host (hl : Layout start stop tags) (ht : t ∈ tags) {name : String}
    (hview : t.view? = some name) (hr : r ∈ hostReplacements name t) :
    (tags.flatMap Tag.kept).find? (·.range = r.range) = none := by
  rw [List.find?_eq_none]
  intro s hs hrange
  have hrange : s.range = r.range := by simpa using hrange
  obtain ⟨u, hu, hs⟩ := List.mem_flatMap.1 hs
  obtain ⟨hnone, hs⟩ := Tag.mem_inner_of_kept hs
  have hne : t ≠ u := by
    rintro rfl
    rw [hview] at hnone
    cases hnone
  have hs' := ((hl.placed u hu).inner hs).1
  rcases hl.apart ht hu hne ((hl.placed t ht).owns_host hr)
    ((hl.placed u hu).owns_inner hs) with ⟨rfl, hempty⟩ | ⟨-, hne⟩
  · omega
  · exact hne hrange.symm

/-- The batch of a template is led by what its elements ask for. -/
theorem Layout.leads (hl : Layout start stop tags) :
    Leads (tags.flatMap Tag.kept ++ tags.flatMap Tag.hosts) (tags.flatMap Tag.edits) := by
  constructor
  · intro r hr
    rcases List.mem_append.1 hr with hr | hr
    · obtain ⟨t, ht, hr⟩ := List.mem_flatMap.1 hr
      obtain ⟨hview, hr⟩ := Tag.mem_inner_of_kept hr
      refine ⟨r, List.mem_flatMap.2 ⟨t, ht, ?_⟩, rfl⟩
      rw [Tag.edits, hview]
      exact hr
    · obtain ⟨t, ht, hr⟩ := List.mem_flatMap.1 hr
      cases hview : t.view? with
      | none => rw [Tag.view?_eq_none hview] at hr; cases hr
      | some name =>
        have hedits : t.edits = hostReplacements name t := by rw [Tag.edits, hview]
        obtain ⟨more, hhosts, hmore⟩ := Tag.view?_eq_some hview
        rw [hhosts] at hr
        rcases List.mem_append.1 hr with hr | hr
        · exact ⟨r, List.mem_flatMap.2 ⟨t, ht, hedits ▸ hr⟩, rfl⟩
        · obtain ⟨e, he, hrange⟩ := hmore r hr
          exact ⟨e, List.mem_flatMap.2 ⟨t, ht, hedits ▸ he⟩, hrange⟩
  · intro e he
    obtain ⟨t, ht, he⟩ := List.mem_flatMap.1 he
    rw [firstAt, List.find?_append]
    cases hview : t.view? with
    | none =>
      rw [Tag.edits, hview] at he
      have hkept : e ∈ tags.flatMap Tag.kept := by
        refine List.mem_flatMap.2 ⟨t, ht, ?_⟩
        rw [Tag.kept, hview]
        exact he
      have hfirst := hl.firstAt_kept hkept
      rw [firstAt] at hfirst
      rw [hfirst, Option.some_or]
    | some name =>
      rw [Tag.edits, hview] at he
      have hfirst := hl.firstAt_hosts ht hview he
      rw [firstAt] at hfirst
      rw [hl.find?_kept_host ht hview he, Option.none_or, hfirst]

theorem replacements_eq (hl : Layout start stop (tagsAll nodes)) :
    replacements nodes =
      (tagsAll nodes).flatMap Tag.kept ++ (tagsAll nodes).flatMap Tag.hosts := by
  have hhosts : (visitAll nodes).flatMap Visit.hosts = (tagsAll nodes).flatMap Tag.hosts := by
    rw [visitAll_eq, List.flatMap_assoc]
    rfl
  have hinner : (visitAll nodes).flatMap Visit.replacements = (tagsAll nodes).flatMap Tag.inner := by
    rw [visitAll_eq, List.flatMap_assoc]
    rfl
  rw [replacements, hhosts, hinner, hl.filter_inner]

end

end RouterShift.Markup
