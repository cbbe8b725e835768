import RouterShift.Proofs.Markup.Migration

/-! How elements end. An element has its own end tag, or it is its start tag, or it ends where
    something around it does: at the end tag of another open element, at the brace that ends a case,
    at the end of the text. An end tag closes the innermost open element of its name
    (`parse_endsWell`). A run of siblings only ends in front of such a place, and from inside of an
    element the place is one of the end tags around it or the end of the case or the text; this is
    what the induction over the written tree carries from an element to its children. -/

namespace RouterShift.Markup
open Text (byteLength byteLength_append)

/-- The end tag of an element is at a place. -/
def Tag.ClosedAt (pos : Nat) (t : Tag) : Prop := ∃ e ∈ t.endTag, e.span.start = pos

/-- An element is still open at a place, and ends there because something around it does. -/
structure Tag.OpenAt (pos : Nat) (t : Tag) : Prop where
  endTag : t.endTag = none
  body : (t.selfClosing || t.isVoid) = false
  stop : t.span.stop = pos

/-- How an element ends among the elements `around` it, with the end of the case or of the text that
    they are in at `limit`. -/
structure Tag.EndsWell (around : List Tag) (limit : Nat) (t : Tag) (children : List Node) : Prop where
  named : isRawText t.name = false → ∀ e ∈ t.endTag, sameName e.name t.name = true
  left : ∀ pos, t.OpenAt pos → (∃ outer ∈ around, outer.ClosedAt pos) ∨ pos = limit
  innermost : ∀ e ∈ t.endTag, ∀ inner ∈ tagsAll children, inner.OpenAt e.span.start →
    sameName e.name inner.name = false

mutual
/-- All elements of a node end well. A case hides the elements around its form, and its own limit is
    the brace that ends it. -/
def Node.EndsWell (m : String) (around : List Tag) (limit : Nat) : Node → Prop
  | .text _ => True
  | .comment _ => True
  | .element tag children =>
    tag.EndsWell around limit children ∧ EndWell m (tag :: around) limit children
  | .expansion _ _ cases => CasesEndWell m cases

def EndWell (m : String) (around : List Tag) (limit : Nat) : List Node → Prop
  | [] => True
  | node :: rest => node.EndsWell m around limit ∧ EndWell m around limit rest

def CasesEndWell (m : String) : List Case → Prop
  | [] => True
  | .mk _ span children :: rest =>
    (∃ limit, (Span.mk limit span.stop).slice? m = some "\x7d" ∧ EndWell m [] limit children) ∧
      CasesEndWell m rest
end

/-! ### The innermost element -/

/-- What stands at the end of some siblings: the end tag of one of the elements around them, or the
    end of what they are in. -/
def EndsAt (around : List Tag) (limit pos : Nat) : Stop → Prop
  | .close => ∃ outer ∈ around, outer.ClosedAt pos
  | _ => pos = limit

section
variable {around : List Tag} {limit pos : Nat} {opened : List String} {inCase : Bool}
  {after more : List Char}

theorem EndsAt.cons {stop : Stop} (tag : Tag) (h : EndsAt around limit pos stop) :
    EndsAt (tag :: around) limit pos stop := by
  cases stop with
  | eof => exact h
  | caseEnd => exact h
  | close =>
    obtain ⟨outer, hmem, hclosed⟩ := h
    exact ⟨outer, List.mem_cons_of_mem tag hmem, hclosed⟩

theorem EndsAt.cases {stop : Stop} (h : EndsAt around limit pos stop) :
    (∃ outer ∈ around, outer.ClosedAt pos) ∨ pos = limit := by
  cases stop with
  | eof => exact .inr h
  | caseEnd => exact .inr h
  | close => exact .inl h

/-- Siblings do not start where a run of siblings ends. -/
theorem eq_nil_of_stopOf {ws : List Written} {stop : Stop}
    (h : ProperAll opened inCase pos after ws)
    (hstop : stopOf inCase (charsAll ws ++ after) = some stop) : ws = [] := by
  obtain ⟨last, hlast⟩ := stopOf_of_proper ws h
  have hread := siblingsFrom_of_proper ws h hlast none fun _ => rfl
  rw [siblingsFrom_stop hstop opened none pos, Except.ok.injEq, Prod.mk.injEq, Prod.mk.injEq,
    flush, List.nil_append] at hread
  cases ws with
  | nil => rfl
  | cons w ws =>
    rw [nodesAll] at hread
    cases hread.1.1

/-- There is one end tag at a place. -/
theorem WrittenEnd.Proper.name_eq {e e' : WrittenEnd} {more' : List Char} (he : e.Proper)
    (he' : e'.Proper) (h : e.chars ++ more = e'.chars ++ more') : e.name = e'.name := by
  have hread := readEndTag_of_proper he 0 more
  rw [h, readEndTag_of_proper he', Except.ok.injEq, Prod.mk.injEq] at hread
  exact (String.ofList_inj.1 (congrArg EndTag.name hread.1)).symm

theorem not_openAt_of_le {tags : List Tag} {start stop : Nat} (h : Layout start stop tags)
    (hlt : stop < pos) {t : Tag} (ht : t ∈ tags) : ¬ t.OpenAt pos := by
  intro hopen
  have hwithin := (h.within t ht).2
  rw [hopen.stop] at hwithin
  omega

/-- What the open elements in front of an end tag are not called. -/
def Tag.Unlike (e : WrittenEnd) (pos : Nat) (t : Tag) : Prop :=
  t.OpenAt pos → sameName (String.ofList e.name) t.name = false

mutual
theorem Written.unlike {e : WrittenEnd} (he : e.Proper) : ∀ (w : Written) {opened : List String}
    {pos : Nat}, w.Proper opened inCase pos (e.chars ++ more) →
      ∀ t ∈ (w.node pos).tags, t.Unlike e (pos + byteLength w.chars)
  | .text cs, _, _, _, t, ht => by rw [Written.node, Node.tags] at ht; cases ht
  | .comment cs, _, _, _, t, ht => by rw [Written.node, Node.tags] at ht; cases ht
  | .single tag, _, pos, h, t, ht => by
    rw [Written.Proper] at h
    rw [Written.node, Node.tags, tagsAll, List.mem_singleton] at ht
    subst ht
    intro hopen
    have hbody : tag.isSingle = false := hopen.body
    rw [h.2] at hbody
    cases hbody
  | .raw tag body stop, _, pos, h, t, ht => by
    rw [Written.node, Node.tags] at ht
    rcases List.mem_cons.1 ht with rfl | ht
    · intro hopen
      cases hopen.endTag
    · rw [rawChildren] at ht
      split at ht <;> cases ht
  | .container tag children stop, _, pos, h, t, ht => by
    rw [Written.Proper] at h
    obtain ⟨-, -, -, hchildren, hstop⟩ := h
    rw [Written.node, Node.tags] at ht
    cases stop with
    | some last =>
      rcases List.mem_cons.1 ht with rfl | ht
      · intro hopen
        cases hopen.endTag
      · -- the children end in front of the end tag that the element has
        have hlt : pos + byteLength tag.chars + byteLength (charsAll children) <
            pos + byteLength (Written.container tag children (some last)).chars := by
          have : 0 < byteLength last.chars := Text.byteLength_pos (List.cons_ne_nil _ _)
          simp only [Written.chars, stopChars, Option.elim_some, byteLength_append]
          omega
        exact fun hopen => absurd hopen (not_openAt_of_le (layoutAll children hchildren) hlt ht)
    | none =>
      rcases List.mem_cons.1 ht with rfl | ht
      · intro _
        obtain ⟨e', more', hchars, he', hother, -⟩ := hstop (stopOf_end inCase e more)
        rw [he.name_eq he' hchars]
        exact hother
      · have hpos : pos + byteLength (Written.container tag children none).chars =
            pos + byteLength tag.chars + byteLength (charsAll children) := by
          simp [Written.chars, stopChars, byteLength_append, Nat.add_assoc]
        rw [hpos]
        exact unlikeAll he children hchildren t ht
  | .form header cases blanks, _, pos, h, t, ht => by
    rw [Written.Proper] at h
    rw [Written.node, Node.tags] at ht
    have hlt : pos + 1 + byteLength header.chars + byteLength (casesChars cases) <
        pos + byteLength (Written.form header cases blanks).chars := by
      simp [Written.chars, byteLength, byteLength_append, Char.utf8Size]
      omega
    exact fun hopen => absurd hopen (not_openAt_of_le (layoutCases cases h.2.1) hlt ht)

theorem unlikeAll {e : WrittenEnd} (he : e.Proper) : ∀ (ws : List Written) {opened : List String}
    {pos : Nat}, ProperAll opened inCase pos (e.chars ++ more) ws →
      ∀ t ∈ tagsAll (nodesAll pos ws), t.Unlike e (pos + byteLength (charsAll ws))
  | [], _, _, _, t, ht => by rw [nodesAll, tagsAll] at ht; cases ht
  | w :: ws, _, pos, h, t, ht => by
    rw [ProperAll] at h
    obtain ⟨hw, -, hws⟩ := h
    rw [nodesAll, tagsAll] at ht
    have hpos : pos + byteLength (charsAll (w :: ws)) =
        pos + byteLength w.chars + byteLength (charsAll ws) := by
      rw [charsAll, byteLength_append, Nat.add_assoc]
    rw [hpos]
    rcases List.mem_append.1 ht with hfirst | hrest
    · cases ws with
      | nil => exact w.unlike he hw t hfirst
      | cons v vs =>
        -- what is in front of a sibling has ended before
        have hlt : pos + byteLength w.chars <
            pos + byteLength w.chars + byteLength (charsAll (v :: vs)) := by
          rw [ProperAll] at hws
          have := Written.chars_pos hws.1
          rw [charsAll, byteLength_append]
          omega
        exact fun hopen => absurd hopen (not_openAt_of_le (w.layout hw) hlt hfirst)
    · exact unlikeAll he ws hws t hrest
end

/-! ### Trees -/

/-- The place of the brace that ends a case. -/
theorem add_one_of_slice? {m : String} {start stop : Nat}
    (h : (Span.mk start stop).slice? m = some "\x7d") : start + 1 = stop := by
  rw [Span.slice?, Option.map_eq_some_iff] at h
  obtain ⟨part, hpart, hbrace⟩ := h
  obtain ⟨-, -, -, -, hstop⟩ := Text.slice?_eq_some.1 hpart
  obtain rfl : part = ['}'] := String.ofList_inj.1 hbrace
  exact hstop

mutual
theorem Written.endsWell {m : String} : ∀ (w : Written) {opened : List String} {inCase : Bool}
    {pos : Nat} {after : List Char} {around : List Tag} {limit : Nat},
    w.Proper opened inCase pos after → (w.node pos).Lossless m →
    (∀ stop, stopOf inCase after = some stop →
      EndsAt around limit (pos + byteLength w.chars) stop) →
    (w.node pos).EndsWell m around limit
  | .text cs, _, _, _, _, _, _, _, _, _ => by rw [Written.node, Node.EndsWell]; trivial
  | .comment cs, _, _, _, _, _, _, _, _, _ => by rw [Written.node, Node.EndsWell]; trivial
  | .single tag, _, _, pos, _, _, _, h, _, _ => by
    rw [Written.Proper] at h
    rw [Written.node, Node.EndsWell, EndWell]
    refine ⟨⟨fun _ e he => (by cases he), fun _ hopen => ?_, fun e he => (by cases he)⟩, trivial⟩
    have hbody : tag.isSingle = false := hopen.body
    rw [h.2] at hbody
    cases hbody
  | .raw tag body stop, _, _, pos, _, _, _, h, _, _ => by
    rw [Written.Proper] at h
    obtain ⟨-, -, hraw, -, -⟩ := h
    rw [Written.node, Node.EndsWell]
    refine ⟨⟨fun hplain => ?_, fun _ hopen => (by cases hopen.endTag),
      fun e _ inner hinner => ?_⟩, ?_⟩
    · have hplain' : tag.isRaw = false := hplain
      rw [hraw] at hplain'
      cases hplain'
    · rw [rawChildren] at hinner
      split at hinner <;> cases hinner
    · rw [rawChildren]
      split
      · rw [EndWell]
        trivial
      · rw [EndWell, EndWell, Node.EndsWell]
        exact ⟨trivial, trivial⟩
  | .container tag children none, opened, inCase, pos, after, around, limit, h, hm, hends => by
    rw [Written.Proper] at h
    obtain ⟨-, -, -, hchildren, -⟩ := h
    obtain ⟨stop, hstop⟩ := stopOf_of_proper children hchildren
    have hpos : pos + byteLength (Written.container tag children none).chars =
        pos + byteLength tag.chars + byteLength (charsAll children) := by
      simp [Written.chars, stopChars, byteLength_append, Nat.add_assoc]
    rw [hpos] at hends
    rw [Written.node, Node.Lossless] at hm
    rw [Written.node, Node.EndsWell]
    refine ⟨⟨fun _ e he => (by cases he), fun p hopen => ?_, fun e he => (by cases he)⟩, ?_⟩
    · rw [← hopen.stop]
      exact (hends stop hstop).cases
    · exact endWell_nodesAll children hchildren hm.2.2.2.2 fun why hwhy => (hends why hwhy).cons _
  | .container tag children (some e), opened, inCase, pos, after, around, limit, h, hm, _ => by
    rw [Written.Proper] at h
    obtain ⟨-, -, -, hchildren, he, hsame⟩ := h
    rw [Written.node, Node.Lossless] at hm
    rw [Written.node, Node.EndsWell]
    refine ⟨⟨fun _ x hx => ?_, fun _ hopen => (by cases hopen.endTag), fun x hx => ?_⟩, ?_⟩
    · obtain rfl := Option.mem_some_iff.1 hx
      exact hsame
    · obtain rfl := Option.mem_some_iff.1 hx
      exact unlikeAll he children hchildren
    · refine endWell_nodesAll children hchildren hm.2.2.2.2 fun why hwhy => ?_
      cases hwhy.symm.trans (stopOf_end inCase e after)
      exact ⟨_, List.mem_cons_self, e.node _, rfl, rfl⟩
  | .form header cases blanks, _, _, pos, _, _, _, h, hm, _ => by
    rw [Written.Proper] at h
    rw [Written.node, Node.Lossless] at hm
    rw [Written.node, Node.EndsWell]
    exact casesEndWell_casesNodes cases h.2.1 hm.2.2

theorem endWell_nodesAll {m : String} : ∀ (ws : List Written) {opened : List String}
    {inCase : Bool} {pos : Nat} {after : List Char} {around : List Tag} {limit : Nat},
    ProperAll opened inCase pos after ws → LosslessAll m (nodesAll pos ws) →
    (∀ stop, stopOf inCase after = some stop →
      EndsAt around limit (pos + byteLength (charsAll ws)) stop) →
    EndWell m around limit (nodesAll pos ws)
  | [], _, _, _, _, _, _, _, _, _ => by rw [nodesAll, EndWell]; trivial
  | w :: ws, opened, inCase, pos, after, around, limit, h, hm, hends => by
    rw [ProperAll] at h
    obtain ⟨hw, -, hws⟩ := h
    have hpos : pos + byteLength (charsAll (w :: ws)) =
        pos + byteLength w.chars + byteLength (charsAll ws) := by
      rw [charsAll, byteLength_append, Nat.add_assoc]
    rw [hpos] at hends
    rw [nodesAll, LosslessAll] at hm
    rw [nodesAll, EndWell]
    refine ⟨w.endsWell hw hm.1 fun stop hstop => ?_, endWell_nodesAll ws hws hm.2 hends⟩
    -- the run is over behind a piece only if the piece is the last one
    obtain rfl := eq_nil_of_stopOf hws hstop
    exact hends stop hstop

theorem casesEndWell_casesNodes {m : String} : ∀ (cs : List WrittenCase) {opened : List String}
    {pos : Nat} {after : List Char}, CasesProper opened pos after cs →
    LosslessCases m (casesNodes pos cs) → CasesEndWell m (casesNodes pos cs)
  | [], _, _, _, _, _ => by rw [casesNodes, CasesEndWell]; trivial
  | .mk blanks label gap children :: cs, opened, pos, after, h, hm => by
    rw [CasesProper, WrittenCase.Proper] at h
    obtain ⟨⟨-, -, -, -, hchildren⟩, hcs⟩ := h
    rw [casesNodes, WrittenCase.node, LosslessCases] at hm
    obtain ⟨⟨_, closed, hcase, -, -, hall⟩, hrest⟩ := hm
    rw [casesNodes, WrittenCase.node, CasesEndWell]
    refine ⟨⟨closed, hcase.closes, ?_⟩, casesEndWell_casesNodes cs hcs hrest⟩
    have hlimit : pos + byteLength blanks + byteLength label + byteLength gap + 1 +
        byteLength (charsAll children) = closed := by
      have hclosed := add_one_of_slice? hcase.closes
      simp [WrittenCase.chars, byteLength, byteLength_append, Char.utf8Size] at hclosed
      omega
    refine endWell_nodesAll children hchildren hall fun stop hstop => ?_
    cases hstop
    exact hlimit
end

end

/-- Every element of a template has an end tag of its name, or is its start tag, or ends in front of
    an end tag of an element around it in the same case, or where the case ends or the text does. And
    every end tag closes the innermost open element that has its name. -/
theorem parse_endsWell {text : String} {nodes : List Node} (h : parse text = .ok nodes) :
    EndWell text [] (byteLength text.toList) nodes := by
  have hm := (parse_lossless h).2.2
  obtain ⟨ws, hws, htext, rfl⟩ := parse_eq_ok_iff.1 h
  refine endWell_nodesAll ws hws hm fun stop hstop => ?_
  cases hstop
  rw [htext, Nat.zero_add]
  exact rfl

/-- Elements that end with an outer one, with a case and with the text. -/
theorem parse_endsWell_left : ∃ nodes,
    parse "<ul><li>a<b>c</UL>\x7bn, k, o \x7b<i>x<br>\x7d\x7d<p>q" = .ok nodes ∧
      (tagsAll nodes).map (fun t => (t.name, t.span.stop, t.endTag.map (·.span.start))) =
        [("ul", 18, some 13), ("li", 13, none), ("b", 13, none), ("i", 36, none),
          ("br", 36, none), ("p", 42, none)] ∧
      EndWell "<ul><li>a<b>c</UL>\x7bn, k, o \x7b<i>x<br>\x7d\x7d<p>q" [] 42 nodes := by
  have hread : ((parse "<ul><li>a<b>c</UL>\x7bn, k, o \x7b<i>x<br>\x7d\x7d<p>q").toOption.map fun nodes =>
      (tagsAll nodes).map fun t => (t.name, t.span.stop, t.endTag.map (·.span.start))) =
        some [("ul", 18, some 13), ("li", 13, none), ("b", 13, none), ("i", 36, none),
          ("br", 36, none), ("p", 42, none)] := by decide +kernel
  obtain ⟨nodes, hnodes, htags⟩ := Option.map_eq_some_iff.1 hread
  have hparse := eq_ok_of_toOption hnodes
  exact ⟨nodes, hparse, htags, parse_endsWell hparse⟩

end RouterShift.Markup
