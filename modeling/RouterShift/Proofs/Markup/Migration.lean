import RouterShift.Proofs.Markup.Migrated

/-! The migration of a written template. The replacements of the pieces are, as a set, what the
    elements ask for, and they stand apart in the order of the text; so they lead the batch that a
    migration collects, and the migrated text is that of the pieces. -/

namespace RouterShift.Markup
open Text (byteLength byteLength_append)
open Edit (Piece Leads Follows Apart before after edits edits_append edits_within)

/-! ### What elements ask for -/

section
variable {pos inside : Nat} {t : WrittenTag} {stop : Option WrittenEnd} {r : Replacement}

theorem translateAttribute?_congr {a b : Attribute} (hname : a.name = b.name)
    (hvalue : a.value = b.value) : translateAttribute? a = translateAttribute? b := by
  simp only [translateAttribute?, hname, hvalue]

theorem WrittenAttribute.name_node (pos : Nat) (a : WrittenAttribute) :
    (a.node pos).name = String.ofList a.name := by
  obtain ⟨name, assigned⟩ := a
  cases assigned <;> rfl

theorem WrittenAttribute.value_node (pos : Nat) (a : WrittenAttribute) :
    (a.node pos).value = String.ofList a.value := by
  obtain ⟨name, assigned⟩ := a
  cases assigned <;> rfl

theorem translateAttribute?_view {a : Attribute} (h : a.name = Vocabulary.view) :
    translateAttribute? a = none := by
  simp [translateAttribute?, h, Vocabulary.view, Vocabulary.sref, Vocabulary.params,
    Vocabulary.srefActive, Vocabulary.srefActiveEq]

theorem edits_piece (pos : Nat) (a : WrittenAttribute) :
    edits pos [a.piece] = (a.node pos).translations := by
  have htrans : translateAttribute? (a.node pos) = a.translated? :=
    translateAttribute?_congr (a.name_node pos) (a.value_node pos)
  have hall : (a.node pos).translations =
      (a.translated?.map fun text => (⟨(a.node pos).span, text⟩ : Replacement)).toList := by
    rw [Attribute.translations]
    split
    · next hview =>
      rw [translateAttribute?_view hview] at htrans
      rw [← htrans]
      rfl
    · rw [htrans]
  rw [hall, a.span_node, WrittenAttribute.piece]
  cases a.translated? with
  | none => rfl
  | some text => simp [edits]

theorem edits_parts : ∀ (pos : Nat) (parts : List TagPart),
    edits pos (parts.map TagPart.piece) = (attributesOf pos parts).flatMap Attribute.translations
  | _, [] => rfl
  | pos, .blank c :: parts => edits_parts (pos + byteLength [c]) parts
  | pos, .slash :: parts => edits_parts (pos + byteLength ['/']) parts
  | pos, .attr a :: parts => by
    rw [List.map_cons, attributesOf, List.flatMap_cons, ← edits_parts, ← edits_piece]
    have happend := edits_append pos [a.piece] (parts.map TagPart.piece)
    rw [List.singleton_append] at happend
    rw [TagPart.piece, happend, Edit.before_cons, before_piece, Edit.before_nil, List.append_nil]

theorem edits_namePiece (pos : Nat) (isOutlet : Bool) (name : List Char) (ps : List Piece) :
    edits pos (namePiece isOutlet name :: ps) =
      (if isOutlet then [⟨⟨pos, pos + byteLength name⟩, Vocabulary.routerOutlet⟩] else []) ++
        edits (pos + byteLength name) ps := by
  rw [namePiece]
  cases isOutlet with
  | true => simp [edits]
  | false => rfl

theorem mem_inner : r ∈ ((t.node pos).stoppingAt inside stop).inner ↔
    r ∈ edits pos t.pieces ∨ r ∈ edits inside (stopPieces t.isOutlet stop) := by
  have hstart : edits pos t.pieces =
      (if t.isOutlet then [⟨(t.node pos).nameSpan, Vocabulary.routerOutlet⟩] else []) ++
        (t.node pos).attributes.flatMap Attribute.translations := by
    have hsize : byteLength ['<'] = 1 := rfl
    rw [WrittenTag.pieces, edits, edits_namePiece, edits_append, edits_parts, hsize, edits, edits,
      List.append_nil]
    rfl
  have hstop : ∀ e : WrittenEnd, edits inside (stopPieces t.isOutlet (some e)) =
      if t.isOutlet then [⟨(e.node inside).nameSpan, Vocabulary.routerOutlet⟩] else [] := by
    intro e
    have hsize : byteLength ['<', '/'] = 2 := rfl
    show edits inside [.keep ['<', '/'], namePiece t.isOutlet e.name, .keep (e.blanks ++ ['>'])] = _
    rw [edits, edits_namePiece, hsize, edits, edits, List.append_nil]
    rfl
  have hnone : edits inside (stopPieces t.isOutlet none) = [] := rfl
  have hrenamed : ∀ tag : Tag, tag.name = String.ofList t.name →
      (tag.name ∈ Vocabulary.outletTags ↔ t.isOutlet = true) := by
    intro tag hname
    rw [hname, WrittenTag.isOutlet, decide_eq_true_eq]
  rw [Tag.inner_eq, Tag.renamings, hstart]
  cases stop with
  | none =>
    rw [hnone, if_congr (hrenamed _ rfl) rfl rfl]
    simp only [List.not_mem_nil, or_false]
    exact Iff.rfl
  | some e =>
    rw [hstop, if_congr (hrenamed _ rfl) rfl rfl]
    cases t.isOutlet with
    | false =>
      simp only [Bool.false_eq_true, if_false, List.not_mem_nil, or_false]
      exact Iff.rfl
    | true =>
      simp only [if_true, List.mem_append, List.mem_cons, List.not_mem_nil, or_false]
      exact ⟨fun h => by
        rcases h with (h | h) | h
        · exact .inl (.inl h)
        · exact .inr (by simpa [Tag.stoppingAt, Tag.closedBy] using h)
        · exact .inl (.inr h), fun h => by
        rcases h with (h | h) | h
        · exact .inl (.inl h)
        · exact .inr h
        · exact .inl (.inr (by simpa [Tag.stoppingAt, Tag.closedBy] using h))⟩

theorem attributesOf_view? : ∀ (pos : Nat) (parts : List TagPart),
    ((attributesOf pos parts).find? (·.name = Vocabulary.view)).map (·.value) =
      (((parts.filterMap TagPart.attribute?).find? (String.ofList ·.name = Vocabulary.view)).map
        (·.value)).map String.ofList
  | _, [] => rfl
  | pos, .blank c :: parts => attributesOf_view? _ parts
  | pos, .slash :: parts => attributesOf_view? _ parts
  | pos, .attr a :: parts => by
    have ih := attributesOf_view? (pos + byteLength a.chars) parts
    rw [attributesOf, List.find?_cons, a.name_node]
    have hcons : (TagPart.attr a :: parts).filterMap TagPart.attribute? =
        a :: parts.filterMap TagPart.attribute? := rfl
    rw [hcons, List.find?_cons]
    split
    · simp [a.value_node]
    · exact ih

theorem view?_node : ((t.node pos).stoppingAt inside stop).view? = t.view?.map String.ofList := by
  cases stop <;> exact attributesOf_view? _ _

theorem view?_single : (t.node pos).view? = t.view?.map String.ofList := attributesOf_view? _ _

theorem hostReplacements_node (hsingle : t.isSingle = false) (name : String) :
    hostReplacements name ((t.node pos).stoppingAt inside stop) =
      ⟨(t.node pos).startTag, outletStart name⟩ :: edits inside (outletStop false stop) := by
  cases stop with
  | none =>
    have hs : (((t.node pos).stoppingAt inside none).selfClosing ||
      ((t.node pos).stoppingAt inside none).isVoid) = false := hsingle
    have hend : ((t.node pos).stoppingAt inside none).endTag = none := rfl
    have hspan : ((t.node pos).stoppingAt inside none).span.stop = inside := rfl
    have hstart : ((t.node pos).stoppingAt inside none).startTag = (t.node pos).startTag := rfl
    simp only [hostReplacements, hend, hs, hspan, hstart, outletStop, edits, Replacement.insert,
      byteLength, String.ofList_toList, Bool.false_eq_true, if_false, Nat.add_zero]
  | some e => simp [hostReplacements, Tag.stoppingAt, Tag.closedBy, outletStop, edits, WrittenEnd.node]

end

/-! ### The same set -/

mutual
/-- An end tag that is put in is among the replacements. -/
theorem Written.mem_inserted : ∀ (w : Written) (pos : Nat), w.inserts = true →
    Replacement.insert (pos + byteLength w.chars) outletEnd ∈ edits pos w.pieces
  | .text cs, _, h => by cases h
  | .comment cs, _, h => by cases h
  | .single tag, _, h => by cases h
  | .raw tag body stop, _, h => by cases h
  | .container tag children (some e), _, h => by cases h
  | .form header cases blanks, _, h => by cases h
  | .container tag children none, pos, h => by
    rw [Written.inserts, Bool.or_eq_true] at h
    have hend : pos + byteLength (Written.container tag children none).chars =
        pos + byteLength tag.chars + byteLength (charsAll children) := by
      simp [Written.chars, stopChars, byteLength_append, Nat.add_assoc]
    rw [hend, Written.pieces]
    by_cases hlast : insertsLast children = true
    · have hmem := mem_insertedLast children (pos + byteLength tag.chars) hlast
      split
      · rw [edits, edits_append]
        exact List.mem_cons_of_mem _ (List.mem_append_left _ hmem)
      · rw [edits_append, WrittenTag.before_pieces, edits_append]
        exact List.mem_append_right _ (List.mem_append_left _ hmem)
    · obtain ⟨name, hname⟩ := Option.isSome_iff_exists.1 (h.resolve_right hlast)
      rw [hname]
      simp only
      rw [edits, edits_append, before_piecesAll, Bool.eq_false_iff.2 hlast]
      refine List.mem_cons_of_mem _ (List.mem_append_right _ ?_)
      simp [outletStop, edits, Replacement.insert, byteLength]

theorem mem_insertedLast : ∀ (ws : List Written) (pos : Nat), insertsLast ws = true →
    Replacement.insert (pos + byteLength (charsAll ws)) outletEnd ∈ edits pos (piecesAll ws)
  | [], _, h => by rw [insertsLast] at h; cases h
  | w :: ws, pos, h => by
    rw [insertsLast] at h
    rw [piecesAll, edits_append, w.before_pieces, charsAll, byteLength_append, ← Nat.add_assoc]
    cases ws with
    | nil =>
      rw [charsAll]
      exact List.mem_append_left _ (w.mem_inserted pos h)
    | cons v ws => exact List.mem_append_right _ (mem_insertedLast (v :: ws) _ h)
end

/-- Where an end tag was put in for the last child, the outlet does not put in another one: the batch
    has the same replacements either way. -/
theorem mem_outletStop {children : List Written} {stop : Option WrittenEnd} {pos : Nat}
    {r : Replacement} :
    (r ∈ edits pos (piecesAll children) ∨
      r ∈ edits (pos + byteLength (charsAll children)) (outletStop (insertsLast children) stop)) ↔
    (r ∈ edits pos (piecesAll children) ∨
      r ∈ edits (pos + byteLength (charsAll children)) (outletStop false stop)) := by
  cases stop with
  | some e => exact Iff.rfl
  | none =>
    cases hlast : insertsLast children with
    | false => exact Iff.rfl
    | true =>
      have hmem := mem_insertedLast children pos hlast
      refine ⟨.imp_right fun hr => (by cases hr), fun h => .inl (h.elim id fun hr => ?_)⟩
      obtain rfl : r = Replacement.insert (pos + byteLength (charsAll children)) outletEnd := by
        simpa [outletStop, edits, byteLength, Replacement.insert] using hr
      exact hmem

mutual
theorem Written.mem_edits : ∀ (w : Written) {opened : List String} {inCase : Bool} {pos : Nat}
    {after : List Char}, w.Proper opened inCase pos after → ∀ r : Replacement,
      r ∈ edits pos w.pieces ↔ r ∈ (w.node pos).tags.flatMap Tag.edits
  | .text cs, _, _, _, _, _, r => by
    rw [Written.pieces, Written.node, Node.tags]
    simp [edits]
  | .comment cs, _, _, _, _, _, r => by
    rw [Written.pieces, Written.node, Node.tags]
    simp [edits]
  | .single tag, _, _, pos, _, h, r => by
    rw [Written.Proper] at h
    have hview := @view?_single pos tag
    rw [Written.pieces, Written.node, Node.tags, tagsAll, List.flatMap_singleton, Tag.edits, hview]
    cases tag.view? with
    | none =>
      have hinner := @mem_inner pos (pos + byteLength tag.chars) tag none r
      have hnone : edits (pos + byteLength tag.chars) (stopPieces tag.isOutlet none) = [] := rfl
      rw [hnone] at hinner
      simp only [List.not_mem_nil, or_false] at hinner
      exact hinner.symm
    | some name =>
      have hs : ((tag.node pos).selfClosing || (tag.node pos).isVoid) = true := h.2
      have hend : (tag.node pos).endTag = none := rfl
      simp only [Option.map_some, hostReplacements, hend, hs, if_true, edits, String.ofList_toList]
      exact Iff.rfl
  | .raw tag body stop, _, _, pos, _, h, r => by
    rw [Written.Proper] at h
    have htags : tagsAll (rawChildren (pos + byteLength tag.chars) body) = [] := by
      rw [rawChildren]
      split <;> rfl
    have hview := @view?_node pos (pos + byteLength tag.chars + byteLength body) tag (some stop)
    have htag : Tag.closedBy (tag.node pos)
        (stop.node (pos + byteLength tag.chars + byteLength body)) =
          (tag.node pos).stoppingAt (pos + byteLength tag.chars + byteLength body) (some stop) := rfl
    rw [Written.pieces, Written.node, Node.tags, htags, List.flatMap_singleton, htag, Tag.edits, hview]
    cases tag.view? with
    | none =>
      simp only [Option.map_none]
      rw [mem_inner, edits_append, WrittenTag.before_pieces, List.mem_append]
      exact Iff.rfl
    | some name =>
      simp only [Option.map_some]
      rw [hostReplacements_node h.2.1, edits, edits, String.ofList_toList]
      exact Iff.rfl
  | .container tag children stop, _, _, pos, _, h, r => by
    rw [Written.Proper] at h
    obtain ⟨htag, hsingle, -, hchildren, -⟩ := h
    have ih := mem_editsAll children hchildren r
    have hview := @view?_node pos
      (pos + byteLength tag.chars + byteLength (charsAll children)) tag stop
    rw [Written.pieces, Written.node, Node.tags, List.flatMap_cons, List.mem_append, Tag.edits, hview,
      ← ih]
    cases tag.view? with
    | none =>
      simp only [Option.map_none]
      rw [mem_inner, edits_append, edits_append, WrittenTag.before_pieces, before_piecesAll,
        List.mem_append, List.mem_append]
      tauto
    | some name =>
      simp only [Option.map_some]
      rw [hostReplacements_node hsingle, edits, edits_append, before_piecesAll,
        String.ofList_toList, List.mem_cons, List.mem_cons, List.mem_append]
      have hstart : (WrittenTag.node pos tag).startTag = ⟨pos, pos + byteLength tag.chars⟩ := rfl
      rw [mem_outletStop, hstart]
      tauto
  | .form header cases blanks, _, _, pos, _, h, r => by
    rw [Written.Proper] at h
    have ih := mem_editsCases cases h.2.1 r
    have hsize : byteLength ('{' :: header.chars) = 1 + byteLength header.chars := rfl
    rw [Written.pieces, Written.node, Node.tags, ← ih, edits, edits_append, hsize, ← Nat.add_assoc,
      List.mem_append]
    simp [edits]

theorem mem_editsAll : ∀ (ws : List Written) {opened : List String} {inCase : Bool} {pos : Nat}
    {after : List Char}, ProperAll opened inCase pos after ws → ∀ r : Replacement,
      r ∈ edits pos (piecesAll ws) ↔ r ∈ (tagsAll (nodesAll pos ws)).flatMap Tag.edits
  | [], _, _, _, _, _, r => by
    rw [piecesAll, nodesAll, tagsAll]
    simp [edits]
  | w :: ws, _, _, pos, _, h, r => by
    rw [ProperAll] at h
    rw [piecesAll, nodesAll, tagsAll, edits_append, w.before_pieces, List.flatMap_append,
      List.mem_append, List.mem_append, w.mem_edits h.1, mem_editsAll ws h.2.2]

theorem mem_editsCases : ∀ (cs : List WrittenCase) {opened : List String} {pos : Nat}
    {after : List Char}, CasesProper opened pos after cs → ∀ r : Replacement,
      r ∈ edits pos (casesPieces cs) ↔ r ∈ (tagsCases (casesNodes pos cs)).flatMap Tag.edits
  | [], _, _, _, _, r => by
    rw [casesPieces, casesNodes, tagsCases]
    simp [edits]
  | .mk blanks label gap children :: cs, _, pos, _, h, r => by
    rw [CasesProper, WrittenCase.Proper] at h
    have hstart : pos + byteLength (blanks ++ (label ++ (gap ++ ['{']))) =
        pos + byteLength blanks + byteLength label + byteLength gap + 1 := by
      simp [byteLength, byteLength_append, Char.utf8Size, Nat.add_assoc]
    have hend : pos + byteLength blanks + byteLength label + byteLength gap + 1 +
        byteLength (charsAll children) + byteLength ['}'] =
          pos + byteLength (WrittenCase.mk blanks label gap children).chars := by
      simp [WrittenCase.chars, byteLength, byteLength_append, Char.utf8Size]
      omega
    rw [casesPieces, casesNodes, WrittenCase.node, tagsCases, edits, edits_append, before_piecesAll,
      edits, hstart, hend, List.flatMap_append, List.mem_append, List.mem_append,
      mem_editsAll children h.1.2.2.2.2, mem_editsCases cs h.2]
end

/-! ### Apart and in order -/

/-- The replacements of pieces from `pos` on stand apart and in order, none of them is an insertion
    at the very start, and one at the very end there is only if `inserts` says so. -/
structure Steady (pos : Nat) (ps : List Piece) (inserts : Bool) : Prop where
  follows : (edits pos ps).Pairwise Follows
  solid : ∀ e ∈ edits pos ps, pos < e.range.stop
  atEnd : inserts = false →
    ∀ e ∈ edits pos ps, e.range.start < pos + byteLength (before ps)

/-- A piece that is no insertion. -/
def Solid : Piece → Prop
  | .keep _ => True
  | .swap old _ => old ≠ []

section
variable {pos : Nat} {ps qs : List Piece} {i j : Bool}

theorem Steady.append (hps : Steady pos ps i) (hqs : Steady (pos + byteLength (before ps)) qs j)
    (h : i = true → before qs ≠ []) : Steady pos (ps ++ qs) j := by
  refine ⟨?_, ?_, ?_⟩
  · rw [edits_append, List.pairwise_append]
    refine ⟨hps.follows, hqs.follows, fun a ha b hb => ?_⟩
    have h1 := edits_within ha
    have h2 := edits_within hb
    have h3 := hqs.solid b hb
    refine ⟨by omega, fun heq => ?_⟩
    rw [heq] at h3
    omega
  · intro e he
    rw [edits_append] at he
    rcases List.mem_append.1 he with he | he
    · exact hps.solid e he
    · have := hqs.solid e he
      omega
  · intro hj e he
    rw [Edit.before_append, byteLength_append]
    rw [edits_append] at he
    rcases List.mem_append.1 he with he | he
    · cases i with
      | false =>
        have := hps.atEnd rfl e he
        omega
      | true =>
        have h1 := edits_within he
        have h2 := Text.byteLength_pos (h rfl)
        omega
    · have := hqs.atEnd hj e he
      omega

theorem Steady.keep (cs : List Char) : Steady pos [.keep cs] false :=
  ⟨.nil, fun e he => (by cases he), fun _ e he => (by cases he)⟩

theorem Steady.swap {old : List Char} (hold : old ≠ []) (new : List Char) :
    Steady pos [.swap old new] false := by
  have hpos := Text.byteLength_pos hold
  refine ⟨List.pairwise_singleton _ _, fun e he => ?_, fun _ e he => ?_⟩
  · obtain rfl := List.mem_singleton.1 he
    simp only
    omega
  · obtain rfl := List.mem_singleton.1 he
    rw [Edit.before_cons, Edit.before_nil, List.append_nil, Piece.before_swap]
    simp only
    omega

theorem Steady.of_solid : ∀ {ps : List Piece} {pos : Nat}, (∀ p ∈ ps, Solid p) → Steady pos ps false
  | [], _, _ => ⟨.nil, fun e he => (by cases he), fun _ e he => (by cases he)⟩
  | .keep cs :: _, _, h =>
    (Steady.keep cs).append (of_solid fun p hp => h p (List.mem_cons_of_mem _ hp)) nofun
  | .swap _ new :: _, _, h =>
    (Steady.swap (h _ List.mem_cons_self) new).append
      (of_solid fun p hp => h p (List.mem_cons_of_mem _ hp)) nofun

/-- An end tag put in behind pieces that do not end with one. -/
theorem Steady.insert (hps : Steady pos ps false) (hne : before ps ≠ []) (new : List Char) :
    Steady pos (ps ++ [.swap [] new]) true := by
  have hpos := Text.byteLength_pos hne
  have hlast : edits (pos + byteLength (before ps)) [.swap [] new] =
      [⟨⟨pos + byteLength (before ps), pos + byteLength (before ps)⟩, String.ofList new⟩] := by
    simp [edits, byteLength]
  refine ⟨?_, ?_, fun h => by cases h⟩
  · rw [edits_append, hlast, List.pairwise_append]
    refine ⟨hps.follows, List.pairwise_singleton _ _, fun a ha b hb => ?_⟩
    obtain rfl := List.mem_singleton.1 hb
    have h1 := edits_within ha
    have h2 := hps.atEnd rfl a ha
    refine ⟨h1.2.2, fun heq => ?_⟩
    have := congrArg Span.start heq
    simp only at this
    omega
  · intro e he
    rw [edits_append, hlast] at he
    rcases List.mem_append.1 he with he | he
    · exact hps.solid e he
    · obtain rfl := List.mem_singleton.1 he
      simp only
      omega

end

theorem WrittenTag.solid_pieces {t : WrittenTag} (ht : t.Proper) : ∀ p ∈ t.pieces, Solid p := by
  have hname : t.name ≠ [] := by
    obtain ⟨c, cs, hcs, -⟩ := ht.letter
    rw [hcs]
    exact List.cons_ne_nil c cs
  have hparts : ∀ {close : List Char} {parts : List TagPart}, PartsProper close parts →
      ∀ p ∈ parts.map TagPart.piece, Solid p := by
    intro close parts
    induction parts with
    | nil => intro _ p hp; cases hp
    | cons part parts ih =>
      intro h p hp
      rcases List.mem_cons.1 hp with rfl | hp
      · cases part with
        | blank c => trivial
        | slash => trivial
        | attr a =>
          have hne : a.chars ≠ [] := by
            rw [WrittenAttribute.chars]
            exact List.append_ne_nil_of_left_ne_nil h.1.nonempty _
          rw [TagPart.piece, WrittenAttribute.piece]
          split
          · exact hne
          · trivial
      · exact ih h.2 p hp
  intro p hp
  rcases List.mem_cons.1 hp with rfl | hp
  · trivial
  · rcases List.mem_cons.1 hp with rfl | hp
    · rw [namePiece]
      split
      · exact hname
      · trivial
    · rcases List.mem_append.1 hp with hp | hp
      · exact hparts ht.parts p hp
      · obtain rfl := List.mem_singleton.1 hp
        trivial

theorem WrittenEnd.solid_pieces {e : WrittenEnd} {isOutlet : Bool}
    (h : isOutlet = true → e.name ≠ []) : ∀ p ∈ e.pieces isOutlet, Solid p := by
  intro p hp
  rcases List.mem_cons.1 hp with rfl | hp
  · trivial
  · rcases List.mem_cons.1 hp with rfl | hp
    · rw [namePiece]
      split
      · next hout => exact h hout
      · trivial
    · obtain rfl := List.mem_singleton.1 hp
      trivial

/-! ### Trees in order -/

theorem WrittenEnd.steady_pieces {e : WrittenEnd} {isOutlet : Bool} {pos : Nat}
    (h : isOutlet = true → e.name ≠ []) : Steady pos (e.pieces isOutlet) false :=
  .of_solid (e.solid_pieces h)

theorem WrittenTag.Proper.steady_pieces {t : WrittenTag} (ht : t.Proper) {pos : Nat} :
    Steady pos t.pieces false :=
  .of_solid (WrittenTag.solid_pieces ht)

section
variable {pos : Nat} {tag : WrittenTag} {children : List Written} {stop : Option WrittenEnd}

/-- An element that stays one, around children that are steady. -/
theorem Steady.element (htag : tag.Proper)
    (hstop : ∀ e ∈ stop, e.name ≠ [])
    (h : Steady (pos + byteLength tag.chars) (piecesAll children) (insertsLast children)) :
    Steady pos (tag.pieces ++ (piecesAll children ++ stopPieces tag.isOutlet stop))
      (stop.isNone && insertsLast children) := by
  have hinside : Steady pos (tag.pieces ++ piecesAll children) (insertsLast children) := by
    refine htag.steady_pieces.append ?_ nofun
    rw [WrittenTag.before_pieces]
    exact h
  rw [← List.append_assoc]
  cases stop with
  | none =>
    have hnone : stopPieces tag.isOutlet none = [] := rfl
    rw [hnone, List.append_nil]
    exact hinside
  | some e =>
    refine hinside.append (e.steady_pieces fun _ => hstop e rfl) fun _ => ?_
    rw [before_stopPieces]
    exact List.cons_ne_nil _ _

/-- An element that becomes an outlet. Its end tag is put in where the last child put in none. -/
theorem Steady.outlet (stop : Option WrittenEnd) (new : List Char)
    (h : Steady (pos + byteLength tag.chars) (piecesAll children) (insertsLast children)) :
    Steady pos (.swap tag.chars new :: (piecesAll children ++ outletStop (insertsLast children) stop))
      stop.isNone := by
  have hchars : tag.chars ≠ [] := List.cons_ne_nil _ _
  have hinside : Steady pos (.swap tag.chars new :: piecesAll children) (insertsLast children) := by
    refine (Steady.swap hchars new).append ?_ nofun
    simpa using h
  rw [← List.cons_append]
  cases stop with
  | none =>
    cases hlast : insertsLast children with
    | true =>
      have hnone : outletStop true none = [] := rfl
      rw [hlast] at hinside
      rw [hnone, List.append_nil]
      exact hinside
    | false =>
      rw [hlast] at hinside
      exact hinside.insert (by simp [hchars]) _
  | some e =>
    exact hinside.append (.swap (List.cons_ne_nil _ _) _) fun _ => List.cons_ne_nil _ _

end

mutual
theorem Written.steady : ∀ (w : Written) {opened : List String} {inCase : Bool} {pos : Nat}
    {after : List Char}, w.Proper opened inCase pos after → Steady pos w.pieces w.inserts
  | .text cs, _, _, _, _, _ => by
    rw [Written.pieces]
    exact .keep cs
  | .comment cs, _, _, _, _, _ => by
    rw [Written.pieces]
    exact .keep cs
  | .single tag, _, _, _, _, h => by
    rw [Written.Proper] at h
    rw [Written.pieces]
    split
    · exact .swap (List.cons_ne_nil _ _) _
    · exact h.1.steady_pieces
  | .raw tag body stop, _, _, pos, _, h => by
    rw [Written.Proper] at h
    obtain ⟨htag, -, hraw, -, -⟩ := h
    have hout := isOutlet_of_isRaw hraw
    rw [Written.pieces]
    split
    · exact (Steady.swap (List.cons_ne_nil _ _) _).append
        ((Steady.keep body).append (.swap (List.cons_ne_nil _ _) _) nofun) nofun
    · refine htag.steady_pieces.append ((Steady.keep body).append ?_ nofun) nofun
      exact stop.steady_pieces fun h => by rw [hout] at h; cases h
  | .container tag children stop, _, _, pos, _, h => by
    rw [Written.Proper] at h
    obtain ⟨htag, -, -, hchildren, hstop⟩ := h
    have ih := steadyAll children hchildren
    rw [Written.pieces]
    cases hview : tag.view? with
    | none =>
      have hname : ∀ e ∈ stop, e.name ≠ [] := by
        rintro e rfl
        obtain ⟨c, cs, hcs, -⟩ := htag.letter
        exact ne_nil_of_sameName (by rw [hcs]; exact List.cons_ne_nil c cs) hstop.2
      have helement := Steady.element htag hname ih
      cases stop with
      | none =>
        rw [Written.inserts, hview]
        exact helement
      | some e => exact helement
    | some name =>
      have houtlet := Steady.outlet stop (outletStart (String.ofList name)).toList ih
      cases stop with
      | none =>
        rw [Written.inserts, hview]
        exact houtlet
      | some e => exact houtlet
  | .form header cases blanks, _, _, pos, _, h => by
    rw [Written.Proper] at h
    have ih := steadyCases cases h.2.1
    rw [Written.pieces]
    have hsize : pos + byteLength (before [Piece.keep ('{' :: header.chars)]) =
        pos + 1 + byteLength header.chars := by
      simp [byteLength, Char.utf8Size, Nat.add_assoc]
    refine (Steady.keep ('{' :: header.chars)).append ?_ nofun
    rw [hsize]
    exact ih.append (.keep _) nofun

theorem steadyAll : ∀ (ws : List Written) {opened : List String} {inCase : Bool} {pos : Nat}
    {after : List Char}, ProperAll opened inCase pos after ws →
      Steady pos (piecesAll ws) (insertsLast ws)
  | [], _, _, _, _, _ => by
    rw [piecesAll, insertsLast]
    exact .of_solid fun p hp => by cases hp
  | w :: ws, _, _, pos, _, h => by
    rw [ProperAll] at h
    have hw := w.steady h.1
    have ih := steadyAll ws h.2.2
    rw [← w.before_pieces] at ih
    rw [piecesAll, insertsLast]
    cases ws with
    | nil =>
      rw [piecesAll, List.append_nil]
      exact hw
    | cons v ws =>
      refine hw.append ih fun _ hnil => ?_
      have hpos := Written.chars_pos (h.2.2 : v.Proper _ _ _ _ ∧ _).1
      rw [before_piecesAll, charsAll] at hnil
      rw [(List.append_eq_nil_iff.1 hnil).1] at hpos
      exact absurd hpos (Nat.lt_irrefl 0)

theorem steadyCases : ∀ (cs : List WrittenCase) {opened : List String} {pos : Nat}
    {after : List Char}, CasesProper opened pos after cs → Steady pos (casesPieces cs) false
  | [], _, _, _, _ => by
    rw [casesPieces]
    exact .of_solid fun p hp => by cases hp
  | .mk blanks label gap children :: cs, _, pos, _, h => by
    rw [CasesProper, WrittenCase.Proper] at h
    have hchildren := steadyAll children h.1.2.2.2.2
    have ih := steadyCases cs h.2
    have hstart : pos + byteLength (before [Piece.keep (blanks ++ (label ++ (gap ++ ['{'])))]) =
        pos + byteLength blanks + byteLength label + byteLength gap + 1 := by
      simp [byteLength, byteLength_append, Char.utf8Size, Nat.add_assoc]
    have hend : pos + byteLength blanks + byteLength label + byteLength gap + 1 +
        byteLength (before (piecesAll children)) + byteLength (before [Piece.keep ['}']]) =
          pos + byteLength (WrittenCase.mk blanks label gap children).chars := by
      simp [WrittenCase.chars, byteLength, byteLength_append, Char.utf8Size, before_piecesAll]
      omega
    rw [casesPieces]
    refine (Steady.keep (blanks ++ (label ++ (gap ++ ['{'])))).append ?_ nofun
    rw [hstart]
    refine hchildren.append ?_ fun _ => List.cons_ne_nil _ _
    refine (Steady.keep ['}']).append ?_ nofun
    rw [hend]
    exact ih
end

/-! ### Templates -/

theorem eq_ok_of_toOption {ε α : Type} {x : Except ε α} {a : α} (h : x.toOption = some a) :
    x = .ok a := by
  cases x with
  | error e => cases h
  | ok b => cases h; rfl

theorem parse_parseOrEmpty {text : String} (h : (parse text).isOk = true) :
    parse text = .ok (parseOrEmpty text) := by
  rw [parseOrEmpty]
  cases hparse : parse text with
  | error e => rw [hparse] at h; cases h
  | ok nodes => rfl

theorem migrateTree_eq (text : String) (nodes : List Node) :
    migrateTree text nodes = (applyEdits text (replacements nodes)).map (·.text) := by
  rw [migrateTree]
  split
  · next h =>
    rw [h, Edit.applyEdits_eq fun r hr => by cases hr]
    simp [Except.map, Edit.made, Edit.inTurn, Edit.choose]
  · rfl

/-- The pieces of a written template lead the batch that its migration collects. -/
theorem IsTemplate.leads {ws : List Written} (h : IsTemplate ws) :
    Leads (replacements (nodesAll 0 ws)) (edits 0 (piecesAll ws)) := by
  have hl := layoutAll ws h
  have hsame := mem_editsAll ws h
  have hleads := hl.leads
  rw [replacements_eq hl]
  refine ⟨fun r hr => ?_, fun e he => hleads.first e ((hsame e).1 he)⟩
  obtain ⟨e, he, hrange⟩ := hleads.covers r hr
  exact ⟨e, (hsame e).2 he, hrange⟩

/-- The migration of a written template is what its pieces say. -/
theorem migrate_charsAll {ws : List Written} (h : IsTemplate ws) :
    migrate (String.ofList (charsAll ws)) = .ok (String.ofList (migratedAll ws)) := by
  rw [migrate, parseOrEmpty, h.parse, migrateTree_eq]
  refine Edit.applyEdits_of_leads ?_ h.leads (steadyAll ws h).follows
  rw [String.toList_ofList, before_piecesAll]

end RouterShift.Markup
