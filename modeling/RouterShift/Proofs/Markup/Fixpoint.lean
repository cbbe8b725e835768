import RouterShift.Proofs.Markup.Reread

/-! Migrating twice is migrating once, for templates that stay what they are. Three things can make
    of a migrated template something else than it was: a value with a double quote in it, which is
    pasted between double quotes; an element whose content was text and that becomes an outlet,
    whose content is markup; and a brace that opened no expansion form only because of the markup
    behind it. A template without them is migrated for good (`migrate_fixpoint`). -/

namespace RouterShift.Markup
open Text (Cursor byteLength byteLength_append)
open Edit (after)

/-- A template with nothing left to migrate. -/
def IsMigrated (text : String) : Prop := ∃ nodes, parse text = .ok nodes ∧ replacements nodes = []

theorem IsMigrated.migrate_eq {text : String} (h : IsMigrated text) : migrate text = .ok text := by
  obtain ⟨nodes, hparse, hnone⟩ := h
  simp only [migrate, parseOrEmpty, hparse, migrateTree, hnone]

instance (text : String) : Decidable (IsMigrated text) :=
  match h : parse text with
  | .error _ => isFalse fun ⟨nodes, hparse, _⟩ => by rw [h] at hparse; cases hparse
  | .ok nodes => decidable_of_iff (replacements nodes = [])
      ⟨fun hnone => ⟨nodes, h, hnone⟩, fun ⟨_, hparse, hnone⟩ => by
        rw [h] at hparse
        cases hparse
        exact hnone⟩

/-! ### Templates that stay what they are -/

/-- The values that a migration pastes between double quotes. -/
def Tag.pasted (t : Tag) : List String :=
  match t.view? with
  | some name => [name]
  | none => (t.attributes.filter fun a => (translateAttribute? a).isSome).map (·.value)

mutual
/-- The texts of a node are settled; what a raw element holds is no text of the template. -/
def Node.isSettled (text : String) : Node → Bool
  | .text span => (span.slice? text).all fun part => Markup.isSettled part.toList
  | .comment _ => true
  | .element tag children => isRawText tag.name || settledAll text children
  | .expansion _ _ cases => settledCases text cases

def settledAll (text : String) : List Node → Bool
  | [] => true
  | node :: rest => node.isSettled text && settledAll text rest

def settledCases (text : String) : List Case → Bool
  | [] => true
  | .mk _ _ children :: rest => settledAll text children && settledCases text rest
end

/-- A text is read as the content of an outlet up to its end tag, as nodes that are settled and in
    which nothing is to be replaced. -/
def isQuietBody (inCase : Bool) (body : String) : Bool :=
  match siblingsFrom [Vocabulary.routerOutlet] inCase none (.ofString (body ++ outletEnd)) with
  | .error _ => false
  | .ok ((nodes, stop), next) => decide (stop = .close) && decide (next.rest = outletEnd.toList) &&
      (tagsAll nodes).all Tag.isQuiet && settledAll (body ++ outletEnd) nodes

/-- What a raw element holds may be the content of an outlet. -/
def Node.isQuietBody (text : String) (inCase : Bool) : Node → Bool
  | .text span => (span.slice? text).all (Markup.isQuietBody inCase)
  | _ => true

mutual
/-- What raw elements hold that become outlets may be the content of one. -/
def Node.hasQuietBodies (text : String) (inCase : Bool) : Node → Bool
  | .text _ => true
  | .comment _ => true
  | .element tag children =>
    if isRawText tag.name then tag.view?.isNone || children.all (Node.isQuietBody text inCase)
    else quietBodiesAll text inCase children
  | .expansion _ _ cases => quietBodiesCases text cases

def quietBodiesAll (text : String) (inCase : Bool) : List Node → Bool
  | [] => true
  | node :: rest => node.hasQuietBodies text inCase && quietBodiesAll text inCase rest

def quietBodiesCases (text : String) : List Case → Bool
  | [] => true
  | .mk _ _ children :: rest => quietBodiesAll text true children && quietBodiesCases text rest
end

/-- None of what can make something else of a migrated template is in the nodes of a text. -/
structure Stable (text : String) (nodes : List Node) : Prop where
  pasted : ∀ t ∈ tagsAll nodes, ∀ value ∈ t.pasted, '"' ∉ value.toList
  settled : settledAll text nodes = true
  bodies : quietBodiesAll text false nodes = true

instance (text : String) (nodes : List Node) : Decidable (Stable text nodes) :=
  decidable_of_iff ((∀ t ∈ tagsAll nodes, ∀ value ∈ t.pasted, '"' ∉ value.toList) ∧
    settledAll text nodes = true ∧ quietBodiesAll text false nodes = true)
    ⟨fun ⟨h1, h2, h3⟩ => ⟨h1, h2, h3⟩, fun ⟨h1, h2, h3⟩ => ⟨h1, h2, h3⟩⟩

/-! ### As they are written -/

theorem pasted_attributes (pos : Nat) (parts : List TagPart) :
    ((attributesOf pos parts).filter fun a => (translateAttribute? a).isSome).map (·.value) =
      (((parts.filterMap TagPart.attribute?).filter (·.translated?.isSome)).map (·.value)).map
        String.ofList := by
  induction parts generalizing pos with
  | nil => rfl
  | cons part parts ih =>
    cases part with
    | blank c => exact ih _
    | slash => exact ih _
    | attr a =>
      have hcons : (TagPart.attr a :: parts).filterMap TagPart.attribute? =
          a :: parts.filterMap TagPart.attribute? := rfl
      have htable : translateAttribute? (a.node pos) = a.translated? :=
        translateAttribute?_congr (a.name_node pos) (a.value_node pos)
      rw [attributesOf, hcons, List.filter_cons, List.filter_cons, htable]
      split
      · rw [List.map_cons, List.map_cons, List.map_cons, ih, a.value_node]
      · exact ih _

theorem WrittenTag.pasted_node {t : WrittenTag} {pos : Nat} :
    (t.node pos).pasted = t.pasted.map String.ofList := by
  rw [Tag.pasted, WrittenTag.pasted, view?_single]
  cases t.view? with
  | some name => rfl
  | none => exact pasted_attributes _ _

theorem WrittenTag.pasted_stopping {t : WrittenTag} {pos inside : Nat} {stop : Option WrittenEnd} :
    ((t.node pos).stoppingAt inside stop).pasted = (t.node pos).pasted := by
  cases stop <;> rfl

/-- Values without double quotes are the same in the tag and as they are written. -/
theorem notMem_pasted {t : WrittenTag} {pos : Nat}
    (h : ∀ value ∈ (t.node pos).pasted, '"' ∉ value.toList) : ∀ value ∈ t.pasted, '"' ∉ value := by
  intro value hvalue
  rw [WrittenTag.pasted_node] at h
  have := h (String.ofList value) (List.mem_map_of_mem hvalue)
  rwa [String.toList_ofList] at this

/-- What is asked of the elements of a template. -/
structure Tag.Stable (t : Tag) : Prop where
  pasted : ∀ value ∈ t.pasted, '"' ∉ value.toList
  embeds : t.view?.isSome = true → ∀ (inCase : Bool) (body : List Char),
    isQuietBody inCase (String.ofList body) = true → Embeds inCase body

theorem embeds_nil (inCase : Bool) : Embeds inCase [] :=
  fun _ _ _ _ h more hsub => h.readsOn more hsub

/-- A raw element that becomes an outlet leaves a text behind that may be the content of one. -/
theorem Written.stable_raw {tag : WrittenTag} {body : List Char} {stop : WrittenEnd}
    {inCase : Bool} {pos : Nat} {front rest : List Char} {text : String} (hraw : tag.isRaw = true)
    (htext : text.toList = front ++ ((Written.raw tag body stop).chars ++ rest))
    (hpos : byteLength front = pos)
    (htags : ∀ t ∈ ((Written.raw tag body stop).node pos).tags, t.Stable)
    (hbodies : ((Written.raw tag body stop).node pos).hasQuietBodies text inCase = true) :
    (Written.raw tag body stop).Stable inCase := by
  have hchars : front ++ ((Written.raw tag body stop).chars ++ rest) =
      (front ++ tag.chars) ++ (body ++ (stop.chars ++ rest)) := by
    simp [Written.chars]
  rw [Written.node, Node.tags] at htags
  rw [Written.node, Node.hasQuietBodies] at hbodies
  have htag := htags _ List.mem_cons_self
  have hview : ((tag.node pos).closedBy
      (stop.node (pos + byteLength tag.chars + byteLength body))).view? =
        tag.view?.map String.ofList := view?_single
  have hraw' : isRawText ((tag.node pos).closedBy
      (stop.node (pos + byteLength tag.chars + byteLength body))).name = true := hraw
  have hpasted : ∀ value ∈ (tag.node pos).pasted, '"' ∉ value.toList := htag.pasted
  rw [if_pos hraw', hview, Bool.or_eq_true] at hbodies
  rw [Written.Stable]
  refine ⟨notMem_pasted hpasted, fun hsome => ?_⟩
  have hsome' : (tag.view?.map String.ofList).isSome = true := by rw [Option.isSome_map, hsome]
  rcases hbodies with hnone | hbody
  · rw [Option.isNone_iff_eq_none.1 hnone] at hsome'
    cases hsome'
  · cases body with
    | nil => exact embeds_nil inCase
    | cons c body =>
      rw [← hpos, ← byteLength_append, rawChildren, List.isEmpty_cons, if_neg Bool.false_ne_true,
        List.all_cons, List.all_nil, Bool.and_true, Node.isQuietBody,
        slice?_part (htext.trans hchars), Option.all_some] at hbody
      exact htag.embeds (hview ▸ hsome') inCase (c :: body) hbody

mutual
theorem Written.stable : ∀ (w : Written) {around : List String} {inCase : Bool} {pos : Nat}
    {back front rest : List Char} {text : String}, w.Proper around inCase pos back →
    text.toList = front ++ (w.chars ++ rest) → byteLength front = pos →
    (∀ t ∈ (w.node pos).tags, t.Stable) → (w.node pos).isSettled text = true →
    (w.node pos).hasQuietBodies text inCase = true → w.Stable inCase
  | .text cs, _, _, _, _, _, _, _, _, htext, hpos, _, hsettled, _ => by
    subst hpos
    rw [Written.chars] at htext
    rw [Written.node, Node.isSettled, slice?_part htext, Option.all_some, String.toList_ofList]
      at hsettled
    exact hsettled
  | .comment cs, _, _, _, _, _, _, _, _, _, _, _, _, _ => trivial
  | .single tag, _, _, _, _, _, _, _, _, _, _, htags, _, _ => by
    rw [Written.node, Node.tags] at htags
    rw [Written.Stable]
    exact notMem_pasted (htags _ List.mem_cons_self).pasted
  | .raw tag body stop, _, _, _, _, _, _, _, h, htext, hpos, htags, _, hbodies => by
    rw [Written.Proper] at h
    exact Written.stable_raw h.2.2.1 htext hpos htags hbodies
  | .container tag children stop, _, inCase, pos, _, front, rest, _, h, htext, hpos, htags, hsettled,
      hbodies => by
    rw [Written.Proper] at h
    obtain ⟨-, -, hraw, hchildren, -⟩ := h
    rw [Written.chars, List.append_assoc, List.append_assoc, ← List.append_assoc] at htext
    rw [Written.node, Node.tags] at htags
    rw [Written.node, Node.hasQuietBodies] at hbodies
    rw [Written.node, Node.isSettled] at hsettled
    have hraw' : isRawText ((tag.node pos).stoppingAt
      (pos + byteLength tag.chars + byteLength (charsAll children)) stop).name = false := by
        cases stop <;> exact hraw
    have hpasted := (htags _ List.mem_cons_self).pasted
    rw [WrittenTag.pasted_stopping] at hpasted
    rw [hraw', if_neg Bool.false_ne_true] at hbodies
    rw [hraw', Bool.false_or] at hsettled
    rw [Written.Stable]
    refine ⟨notMem_pasted hpasted, stableAll children hchildren htext ?_ ?_ hsettled hbodies⟩
    · rw [byteLength_append, hpos]
    · intro t ht
      exact htags t (List.mem_cons_of_mem _ ht)
  | .form header cases blanks, _, inCase, pos, _, front, rest, _, h, htext, hpos, htags, hsettled,
      hbodies => by
    rw [Written.Proper] at h
    obtain ⟨-, hcases, -⟩ := h
    rw [Written.node, Node.tags] at htags
    rw [Written.node, Node.hasQuietBodies] at hbodies
    rw [Written.node, Node.isSettled] at hsettled
    have hchars : front ++ ((Written.form header cases blanks).chars ++ rest) =
        (front ++ '{' :: header.chars) ++ (casesChars cases ++ (blanks ++ '}' :: rest)) := by
      simp [Written.chars]
    have hsize : ('{' : Char).utf8Size = 1 := rfl
    rw [Written.Stable]
    refine stableCases cases hcases (htext.trans hchars) ?_ htags hsettled hbodies
    rw [byteLength_append, byteLength, hsize, hpos, Nat.add_assoc]

theorem stableAll : ∀ (ws : List Written) {around : List String} {inCase : Bool} {pos : Nat}
    {back front rest : List Char} {text : String}, ProperAll around inCase pos back ws →
    text.toList = front ++ (charsAll ws ++ rest) → byteLength front = pos →
    (∀ t ∈ tagsAll (nodesAll pos ws), t.Stable) → settledAll text (nodesAll pos ws) = true →
    quietBodiesAll text inCase (nodesAll pos ws) = true → StableAll inCase ws
  | [], _, _, _, _, _, _, _, _, _, _, _, _, _ => trivial
  | w :: ws, _, _, pos, _, front, rest, _, h, htext, hpos, htags, hsettled, hbodies => by
    rw [ProperAll] at h
    rw [charsAll, List.append_assoc] at htext
    rw [nodesAll, tagsAll] at htags
    rw [nodesAll, settledAll, Bool.and_eq_true] at hsettled
    rw [nodesAll, quietBodiesAll, Bool.and_eq_true] at hbodies
    have hws := htext
    rw [← List.append_assoc] at hws
    rw [StableAll]
    refine ⟨w.stable h.1 htext hpos (fun t ht => htags t (List.mem_append_left _ ht)) hsettled.1
      hbodies.1, stableAll ws h.2.2 hws ?_ (fun t ht => htags t (List.mem_append_right _ ht))
      hsettled.2 hbodies.2⟩
    rw [byteLength_append, hpos]

theorem stableCases : ∀ (cs : List WrittenCase) {around : List String} {pos : Nat}
    {back front rest : List Char} {text : String}, CasesProper around pos back cs →
    text.toList = front ++ (casesChars cs ++ rest) → byteLength front = pos →
    (∀ t ∈ tagsCases (casesNodes pos cs), t.Stable) →
    settledCases text (casesNodes pos cs) = true →
    quietBodiesCases text (casesNodes pos cs) = true → StableCases cs
  | [], _, _, _, _, _, _, _, _, _, _, _, _ => trivial
  | .mk blanks label gap children :: cs, _, pos, _, front, rest, _, h, htext, hpos, htags, hsettled,
      hbodies => by
    rw [CasesProper, WrittenCase.Proper] at h
    obtain ⟨⟨-, -, -, -, hchildren⟩, hcs⟩ := h
    rw [casesNodes, WrittenCase.node, tagsCases] at htags
    rw [casesNodes, WrittenCase.node, settledCases, Bool.and_eq_true] at hsettled
    rw [casesNodes, WrittenCase.node, quietBodiesCases, Bool.and_eq_true] at hbodies
    have hsize : ('{' : Char).utf8Size = 1 := rfl
    have hinside : front ++ (casesChars (.mk blanks label gap children :: cs) ++ rest) =
        (front ++ (blanks ++ (label ++ (gap ++ ['{'])))) ++
          (charsAll children ++ '}' :: (casesChars cs ++ rest)) := by
      simp [casesChars, WrittenCase.chars]
    have hbehind : front ++ (casesChars (.mk blanks label gap children :: cs) ++ rest) =
        (front ++ (WrittenCase.mk blanks label gap children).chars) ++ (casesChars cs ++ rest) := by
      simp [casesChars]
    rw [StableCases]
    refine ⟨stableAll children hchildren (htext.trans hinside) ?_
      (fun t ht => htags t (List.mem_append_left _ ht)) hsettled.1 hbodies.1,
      stableCases cs hcs (htext.trans hbehind) ?_
      (fun t ht => htags t (List.mem_append_right _ ht)) hsettled.2 hbodies.2⟩
    · simp only [byteLength_append, byteLength, hsize, hpos]
      omega
    · rw [byteLength_append, hpos]
end

/-! ### Bodies that are read quietly -/

section
variable {a : WrittenAttribute} {t : WrittenTag} {pos : Nat}

theorem WrittenTag.view?_eq_none (h : (t.node pos).isQuiet = true) : t.view? = none := by
  rw [WrittenTag.isQuiet_node] at h
  rw [WrittenTag.view?, Option.map_eq_none_iff, List.find?_eq_none]
  intro a ha hview
  have hname : String.ofList a.name = Vocabulary.view := by simpa using hview
  exact h.2 a ha (by rw [hname]; decide)

/-- A quiet tag stays. -/
theorem WrittenTag.after_pieces_of_quiet (h : (t.node pos).isQuiet = true) : after t.pieces = t.chars := by
  rw [WrittenTag.isQuiet_node] at h
  have hout : t.isOutlet = false := decide_eq_false h.1
  have hparts : ∀ parts : List TagPart, (∀ a ∈ parts.filterMap TagPart.attribute?,
      String.ofList a.name ∉ Vocabulary.attributes) →
        after (parts.map TagPart.piece) = partsChars parts := by
    intro parts hparts
    induction parts with
    | nil => rfl
    | cons part parts ih =>
      cases part with
      | blank c => exact congrArg (c :: ·) (ih hparts)
      | slash => exact congrArg ('/' :: ·) (ih hparts)
      | attr a =>
        have hnone : a.translated? = none :=
          translateAttribute?_eq_none (hparts a List.mem_cons_self)
        have ih := ih fun b hb => hparts b (List.mem_cons_of_mem a hb)
        rw [List.map_cons, Edit.after_cons, ih, TagPart.piece, WrittenAttribute.piece, hnone]
        rfl
  rw [WrittenTag.pieces, Edit.after_cons, Edit.after_cons, Edit.after_append, hparts t.parts h.2,
    hout, after_namePiece_false]
  simp [WrittenTag.chars]

theorem WrittenEnd.after_pieces_false (e : WrittenEnd) : after (e.pieces false) = e.chars := by
  simp [WrittenEnd.pieces, WrittenEnd.chars, namePiece]

end

mutual
/-- Quiet nodes are migrated as they are. -/
theorem Written.after_pieces_of_quiet : ∀ (w : Written) {pos : Nat}, (∀ t ∈ (w.node pos).tags,
    t.isQuiet = true) → after w.pieces = w.chars
  | .text cs, _, _ => by simp [Written.pieces, Written.chars]
  | .comment cs, _, _ => by simp [Written.pieces, Written.chars]
  | .single tag, pos, h => by
    rw [Written.node, Node.tags] at h
    have hquiet := h _ List.mem_cons_self
    rw [Written.pieces, WrittenTag.view?_eq_none hquiet, Written.chars]
    exact WrittenTag.after_pieces_of_quiet hquiet
  | .raw tag body stop, pos, h => by
    rw [Written.node, Node.tags] at h
    have hquiet : (tag.node pos).isQuiet = true := by
      have := h _ List.mem_cons_self
      exact this
    have hout : tag.isOutlet = false := decide_eq_false (WrittenTag.isQuiet_node.1 hquiet).1
    rw [Written.pieces, WrittenTag.view?_eq_none hquiet, Written.chars]
    simp only [Edit.after_append, Edit.after_cons, Edit.Piece.after_keep, hout,
      WrittenTag.after_pieces_of_quiet hquiet, WrittenEnd.after_pieces_false]
  | .container tag children stop, pos, h => by
    rw [Written.node, Node.tags] at h
    have hquiet : (tag.node pos).isQuiet = true := by
      have := h _ List.mem_cons_self
      cases stop <;> exact this
    have hout : tag.isOutlet = false := decide_eq_false (WrittenTag.isQuiet_node.1 hquiet).1
    have ih := after_piecesAll_of_quiet children fun t ht => h t (List.mem_cons_of_mem _ ht)
    rw [Written.pieces, WrittenTag.view?_eq_none hquiet, Written.chars]
    simp only [Edit.after_append, hout, WrittenTag.after_pieces_of_quiet hquiet, ih]
    cases stop with
    | none => rfl
    | some e => rw [stopPieces, Option.elim_some, WrittenEnd.after_pieces_false]; rfl
  | .form header cases blanks, pos, h => by
    rw [Written.node, Node.tags] at h
    have ih := after_casesPieces_of_quiet cases h
    simp [Written.pieces, Written.chars, ih]

theorem after_piecesAll_of_quiet : ∀ (ws : List Written) {pos : Nat}, (∀ t ∈ tagsAll (nodesAll pos ws),
    t.isQuiet = true) → after (piecesAll ws) = charsAll ws
  | [], _, _ => by rw [piecesAll, charsAll]; rfl
  | w :: ws, pos, h => by
    rw [nodesAll, tagsAll] at h
    rw [piecesAll, charsAll, Edit.after_append, w.after_pieces_of_quiet fun t ht =>
      h t (List.mem_append_left _ ht), after_piecesAll_of_quiet ws fun t ht =>
        h t (List.mem_append_right _ ht)]

theorem after_casesPieces_of_quiet : ∀ (cs : List WrittenCase) {pos : Nat},
    (∀ t ∈ tagsCases (casesNodes pos cs), t.isQuiet = true) → after (casesPieces cs) = casesChars cs
  | [], _, _ => by rw [casesPieces, casesChars]; rfl
  | .mk blanks label gap children :: cs, pos, h => by
    rw [casesNodes, WrittenCase.node, tagsCases] at h
    have hchildren := after_piecesAll_of_quiet children fun t ht => h t (List.mem_append_left _ ht)
    have hcs := after_casesPieces_of_quiet cs fun t ht => h t (List.mem_append_right _ ht)
    simp [casesPieces, casesChars, WrittenCase.chars, hchildren, hcs]
end

mutual
theorem Node.hasQuietBodies_of_quiet (text : String) (inCase : Bool) : ∀ node : Node,
    (∀ t ∈ node.tags, t.view? = none) → node.hasQuietBodies text inCase = true
  | .text _, _ => by rw [Node.hasQuietBodies]
  | .comment _, _ => by rw [Node.hasQuietBodies]
  | .element tag children, h => by
    rw [Node.tags] at h
    rw [Node.hasQuietBodies, h tag List.mem_cons_self, Option.isNone_none, Bool.true_or]
    split
    · rfl
    · exact quietBodiesAll_of_quiet text inCase children fun t ht => h t (List.mem_cons_of_mem tag ht)
  | .expansion _ _ cases, h => by
    rw [Node.tags] at h
    rw [Node.hasQuietBodies]
    exact quietBodiesCases_of_quiet text cases h

theorem quietBodiesAll_of_quiet (text : String) (inCase : Bool) : ∀ nodes : List Node,
    (∀ t ∈ tagsAll nodes, t.view? = none) → quietBodiesAll text inCase nodes = true
  | [], _ => by rw [quietBodiesAll]
  | node :: rest, h => by
    rw [tagsAll] at h
    rw [quietBodiesAll,
      node.hasQuietBodies_of_quiet text inCase fun t ht => h t (List.mem_append_left _ ht),
      quietBodiesAll_of_quiet text inCase rest fun t ht => h t (List.mem_append_right _ ht)]
    rfl

theorem quietBodiesCases_of_quiet (text : String) : ∀ cases : List Case,
    (∀ t ∈ tagsCases cases, t.view? = none) → quietBodiesCases text cases = true
  | [], _ => by rw [quietBodiesCases]
  | .mk _ _ children :: rest, h => by
    rw [tagsCases] at h
    rw [quietBodiesCases,
      quietBodiesAll_of_quiet text true children fun t ht => h t (List.mem_append_left _ ht),
      quietBodiesCases_of_quiet text rest fun t ht => h t (List.mem_append_right _ ht)]
    rfl
end

theorem Tag.isQuiet_spec {t : Tag} (h : t.isQuiet = true) : t.view? = none ∧ t.pasted = [] := by
  simp only [Tag.isQuiet, Bool.and_eq_true, decide_eq_true_eq, List.all_eq_true] at h
  have hview : t.view? = none := by
    rw [Tag.view?, Option.map_eq_none_iff, List.find?_eq_none]
    intro a ha hname
    have hname : a.name = Vocabulary.view := by simpa using hname
    exact h.2 a ha (by rw [hname]; decide)
  refine ⟨hview, ?_⟩
  rw [Tag.pasted, hview]
  have hnone : ∀ a ∈ t.attributes, ¬ (translateAttribute? a).isSome = true := by
    intro a ha
    rw [translateAttribute?_eq_none (h.2 a ha)]
    simp
  simp only [List.filter_eq_nil_iff.2 hnone, List.map_nil]

/-- A body that is read quietly may be the content of an outlet. -/
theorem embeds_of_isQuietBody {inCase : Bool} {body : List Char}
    (h : isQuietBody inCase (String.ofList body) = true) : Embeds inCase body := by
  rw [isQuietBody] at h
  split at h
  · cases h
  · next nodes stop next hread =>
    simp only [Bool.and_eq_true, decide_eq_true_eq, List.all_eq_true] at h
    obtain ⟨⟨⟨rfl, hnext⟩, hquiet⟩, hsettled⟩ := h
    obtain ⟨front, ws, hparts⟩ := recovers _ (Nat.lt_succ_self _) hread
    obtain ⟨-, hnodes, -⟩ := hparts.eq_of_siblingsFrom hread
    have hproper := hparts.properAll
    have hrest : (String.ofList body ++ outletEnd).toList = front ++ (charsAll ws ++ next.rest) :=
      hparts.rest
    have hpos : (Cursor.ofString (String.ofList body ++ outletEnd)).pos = 0 := rfl
    rw [hpos] at hnodes hproper
    rw [← List.append_assoc, ← charsAll_textBefore, hnext] at hrest
    rw [hnext] at hproper
    subst hnodes
    have hbody : body = charsAll (textBefore front ws) := by
      rw [String.toList_append, String.toList_ofList] at hrest
      exact List.append_cancel_right hrest
    have hview : ∀ t ∈ tagsAll (nodesAll 0 (textBefore front ws)), t.Stable := by
      intro t ht
      obtain ⟨hnone, hpasted⟩ := Tag.isQuiet_spec (hquiet t ht)
      refine ⟨fun value hvalue => ?_, fun hsome => ?_⟩
      · rw [hpasted] at hvalue
        cases hvalue
      · rw [hnone] at hsome
        cases hsome
    have hbodies := quietBodiesAll_of_quiet (String.ofList body ++ outletEnd) inCase
      (nodesAll 0 (textBefore front ws)) fun t ht => (Tag.isQuiet_spec (hquiet t ht)).1
    have hstable := @stableAll (textBefore front ws) _ _ _ _ [] outletEnd.toList _ hproper hrest rfl
      hview hsettled hbodies
    have hpieces := after_piecesAll_of_quiet (textBefore front ws) hquiet
    intro opened final inner cont hcont more hsub
    have hread := (resumesAll (textBefore front ws) hproper hstable hcont).readsOn more hsub
    rw [hpieces, ← hbody] at hread
    exact hread

/-! ### The fixpoint -/

/-- A template that is stable is migrated for good. -/
theorem IsTemplate.isMigrated {ws : List Written} (h : IsTemplate ws) (hstable : StableAll false ws) :
    IsMigrated (String.ofList (migratedAll ws)) := by
  have hend : Resumes [] false (fun stop _ => stop = .eof) [] [] [] :=
    ⟨.inl rfl, fun _ => ⟨List.not_mem_nil, rfl⟩,
      fun more _ => ReadsOn.over (stopOf_eq_eof.2 rfl) (by decide) rfl more⟩
  have hread := (resumesAll ws h hstable hend).readsOn [] (List.Sublist.refl [])
  obtain ⟨nodes, stop, next, hsiblings, hquiet, hstop⟩ := hread none 0
  have hstop : stop = .eof := hstop
  have hsiblings : siblingsFrom [] false none ⟨0, migratedAll ws ++ []⟩ =
    .ok ((nodes, stop), next) := hsiblings
  rw [List.append_nil, hstop] at hsiblings
  refine ⟨nodes, ?_, hquiet.replacements_eq_nil⟩
  rw [parse_eq, Cursor.ofString, String.toList_ofList, hsiblings]

/-- What a migration comes to is a template with nothing left to migrate, unless one of the things
    that make something else of it is in its way; migrating again changes nothing. -/
theorem migrate_fixpoint {text : String} {nodes : List Node} (h : parse text = .ok nodes)
    (hstable : replacements nodes ≠ [] → Stable text nodes) :
    ∃ out, migrate text = .ok out ∧ IsMigrated out ∧ migrate out = .ok out := by
  by_cases hnone : replacements nodes = []
  · have hdone : IsMigrated text := ⟨nodes, h, hnone⟩
    exact ⟨text, hdone.migrate_eq, hdone, hdone.migrate_eq⟩
  · obtain ⟨hpasted, hsettled, hbodies⟩ := hstable hnone
    obtain ⟨ws, hws, htext, rfl⟩ := parse_eq_ok_iff.1 h
    have htags : ∀ t ∈ tagsAll (nodesAll 0 ws), t.Stable := fun t ht =>
      ⟨hpasted t ht, fun _ _ _ hbody => embeds_of_isQuietBody hbody⟩
    have hchars : text.toList = [] ++ (charsAll ws ++ []) := by rw [htext]; simp
    have hmigrated := hws.isMigrated (stableAll ws hws hchars rfl htags hsettled hbodies)
    refine ⟨_, ?_, hmigrated, hmigrated.migrate_eq⟩
    rw [← String.ofList_toList (s := text), htext, migrate_charsAll hws]

/-- A brace that opens no form, and a form with an outlet in it that was a text area and is not
    closed. -/
def stableTemplate : String :=
  "\x7bx, y, z\x7d \x7bn, k, o \x7b<p ui-view><textarea ui-view=v>\x7b\x7b a \x7d\x7d<b>c" ++
    "</textarea><a uiSref>\x7d\x7d"

theorem migrate_fixpoint_textarea :
    Stable stableTemplate (parseOrEmpty stableTemplate) ∧ ∃ out, migrate stableTemplate = .ok out ∧
      IsMigrated out ∧ migrate out = .ok out :=
  have hparse := @parse_parseOrEmpty stableTemplate (by decide +kernel)
  have hstable : Stable stableTemplate (parseOrEmpty stableTemplate) := by decide +kernel
  ⟨hstable, migrate_fixpoint hparse fun _ => hstable⟩

/-! ### What is in the way -/

theorem mergeSort_pair {α : Type} (le : α → α → Bool) (a b : α) :
    [a, b].mergeSort le = if le a b then [a, b] else [b, a] := by
  simp [List.mergeSort, List.MergeSort.Internal.splitInTwo, List.merge]

/-- A script has no links in it; once it is an outlet, it has one, and that is left to migrate. -/
theorem migrate_script_again :
    (parse "<script ui-view><a uiSref></a></script>").isOk = true ∧
      migrate "<script ui-view><a uiSref></a></script>" =
        .ok "<router-outlet><a uiSref></a></router-outlet>" ∧
      ¬ IsMigrated "<router-outlet><a uiSref></a></router-outlet>" ∧
      migrate "<router-outlet><a uiSref></a></router-outlet>" =
        .ok "<router-outlet><a [routerLink]=\"['']\"></a></router-outlet>" := by
  refine ⟨by decide +kernel, ?_, by decide +kernel, eq_ok_of_toOption (by decide +kernel)⟩
  have htags : replacements (parseOrEmpty "<script ui-view><a uiSref></a></script>") =
      [⟨⟨0, 16⟩, "<router-outlet>"⟩, ⟨⟨30, 39⟩, "</router-outlet>"⟩] := by decide +kernel
  rw [migrate, migrateTree, htags]
  simp only [applyEdits, mergeSort_pair]
  rfl

/-- A double quote ends the value it is pasted into. -/
theorem migrate_quote_unreadable :
    (parse "<a uiSref='x\"y'></a>").isOk = true ∧
      migrate "<a uiSref='x\"y'></a>" = .ok "<a [routerLink]=\"['x\"y']\"></a>" ∧
      (parse "<a [routerLink]=\"['x\"y']\"></a>").isOk = false :=
  ⟨by decide +kernel, eq_ok_of_toOption (by decide +kernel), by decide +kernel⟩

/-- A tag with a blank in it is no label of a case, and the tags in its place are one. -/
theorem migrate_brace_unreadable :
    (parse "<p>\x7bn, k, <br ui-view>\x7b</p>").isOk = true ∧
      migrate "<p>\x7bn, k, <br ui-view>\x7b</p>" =
        .ok "<p>\x7bn, k, <router-outlet></router-outlet>\x7b</p>" ∧
      (parse "<p>\x7bn, k, <router-outlet></router-outlet>\x7b</p>").isOk = false :=
  ⟨by decide +kernel, eq_ok_of_toOption (by decide +kernel), by decide +kernel⟩

end RouterShift.Markup
