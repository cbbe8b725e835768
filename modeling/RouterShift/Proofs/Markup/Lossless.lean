import RouterShift.Proofs.Edit.Selection
import RouterShift.Proofs.Markup.Recovery
import RouterShift.Proofs.Text.Split

/-! The tree of a template loses nothing of the text. The spans of siblings tile the place they
    were read from, at every depth; what lies within a tag is in order and apart; and whatever name
    or value is kept is the text at its span. All of it is read off the written tree: a piece that
    stands behind `front` has the spans that start at the length of `front`. -/

namespace RouterShift.Markup
open Text (byteLength byteLength_append slice?_eq_some)
open Edit (Addressable addressable_iff)

/-- The spans follow each other without a gap, from `start` to `stop`. -/
def Tile (start stop : Nat) : List Span → Prop
  | [] => start = stop
  | s :: rest => s.start = start ∧ s.start < s.stop ∧ Tile s.stop stop rest

/-- The spans are nonempty, increasing and pairwise apart, all between `start` and `stop`. -/
def InOrder (start stop : Nat) : List Span → Prop
  | [] => start ≤ stop
  | s :: rest => start ≤ s.start ∧ s.start < s.stop ∧ InOrder s.stop stop rest

def Node.isText : Node → Bool
  | .text _ => true
  | _ => false

/-- No two texts stand side by side. -/
def TextsApart : List Node → Prop
  | [] => True
  | [_] => True
  | a :: b :: rest => ¬ (a.isText = true ∧ b.isText = true) ∧ TextsApart (b :: rest)

/-- An attribute keeps its name, and its value if it has one, as they stand in the text. -/
structure Attribute.Lossless (m : String) (a : Attribute) : Prop where
  span : Addressable m.toList a.span
  name : (Span.mk a.span.start (a.span.start + byteLength a.name.toList)).slice? m = some a.name
  value : ∀ v ∈ a.valueSpan, a.span.contains v = true ∧ v.slice? m = some a.value
  bare : a.valueSpan = none → a.value = "" ∧ a.span.slice? m = some a.name

structure EndTag.Lossless (m : String) (e : EndTag) : Prop where
  span : Addressable m.toList e.span
  inside : e.span.contains e.nameSpan = true
  name : e.nameSpan.slice? m = some e.name

/-- Where the children of an element end. -/
def Tag.bodyStop (t : Tag) : Nat :=
  match t.endTag with
  | some e => e.span.start
  | none => t.span.stop

structure Tag.Lossless (m : String) (t : Tag) : Prop where
  span : Addressable m.toList t.span
  startTag : Addressable m.toList t.startTag
  start : t.span.start = t.startTag.start
  name : t.nameSpan.slice? m = some t.name
  inOrder : InOrder t.startTag.start t.startTag.stop (t.nameSpan :: t.attributes.map Attribute.span)
  attributes : ∀ a ∈ t.attributes, a.Lossless m
  endTag : ∀ e ∈ t.endTag, e.Lossless m ∧ e.span.stop = t.span.stop

/-- The header of an expansion form stands in front of its cases, which are in order. -/
def Header.Lossless (m : String) (h : Header) (span : Span) (cases : List Span) : Prop :=
  ∃ switched kind : Span, switched.slice? m = some h.switchValue ∧ kind.slice? m = some h.kind ∧
    InOrder span.start span.stop (switched :: kind :: cases)

/-- A case starts with its label; a brace opens it, with nothing but blanks in between, and it ends
    with a brace. `opened` and `closed` are the places behind the one and before the other. -/
structure CaseLossless (m label : String) (span : Span) (opened closed : Nat) : Prop where
  addressable : Addressable m.toList span
  starts : (Span.mk span.start (span.start + byteLength label.toList)).slice? m = some label
  opens : ∃ blanks : List Char, (∀ c ∈ blanks, Text.isAsciiBlank c = true) ∧
    (Span.mk (span.start + byteLength label.toList) opened).slice? m =
      some (String.ofList (blanks ++ ['{']))
  closes : (Span.mk closed span.stop).slice? m = some "\x7d"

mutual
/-- A node and all below it keep what they were read from. -/
def Node.Lossless (m : String) : Node → Prop
  | .text span => Addressable m.toList span
  | .comment span => Addressable m.toList span
  | .element tag children =>
    tag.Lossless m ∧ Tile tag.startTag.stop tag.bodyStop (children.map Node.span) ∧
      TextsApart children ∧
      ((tag.selfClosing || tag.isVoid) = true →
        children = [] ∧ tag.span = tag.startTag ∧ tag.endTag = none) ∧
      LosslessAll m children
  | .expansion header span cases =>
    Addressable m.toList span ∧ header.Lossless m span (cases.map Case.span) ∧
      LosslessCases m cases

def LosslessAll (m : String) : List Node → Prop
  | [] => True
  | node :: rest => node.Lossless m ∧ LosslessAll m rest

def LosslessCases (m : String) : List Case → Prop
  | [] => True
  | .mk label span children :: rest =>
    (∃ opened closed, CaseLossless m label span opened closed ∧
      Tile opened closed (children.map Node.span) ∧ TextsApart children ∧ LosslessAll m children) ∧
      LosslessCases m rest
end

/-! ### Parts of a text -/

section
variable {m : String} {a p b : List Char}

theorem slice?_part (h : m.toList = a ++ (p ++ b)) :
    (Span.mk (byteLength a) (byteLength a + byteLength p)).slice? m =
      some (String.ofList p) := by
  rw [Span.slice?, slice?_eq_some.2 ⟨a, b, ?_, rfl, rfl⟩, Option.map_some]
  rw [h, List.append_assoc]

theorem addressable_part (h : m.toList = a ++ (p ++ b)) :
    Addressable m.toList ⟨byteLength a, byteLength a + byteLength p⟩ :=
  addressable_iff.2 ⟨a, p, b, by rw [h, List.append_assoc], rfl, rfl⟩

end

theorem InOrder.le : ∀ {start stop : Nat} {spans : List Span}, InOrder start stop spans →
    start ≤ stop
  | _, _, [], h => h
  | _, _, s :: _, ⟨h1, h2, h3⟩ => by
    have := h3.le
    omega

theorem InOrder.weaken : ∀ {start start' stop : Nat} {spans : List Span},
    InOrder start stop spans → start' ≤ start → InOrder start' stop spans
  | _, _, _, [], h, hle => Nat.le_trans hle h
  | _, _, _, _ :: _, ⟨h1, h2, h3⟩, hle => ⟨Nat.le_trans hle h1, h2, h3⟩

/-! ### Tags -/

section
variable {m : String} {front back : List Char}

theorem WrittenAttribute.span_node (pos : Nat) (a : WrittenAttribute) :
    (a.node pos).span = ⟨pos, pos + byteLength a.chars⟩ := by
  obtain ⟨name, assigned⟩ := a
  cases assigned with
  | none => simp [WrittenAttribute.node, WrittenAttribute.chars]
  | some v => rfl

theorem WrittenValue.exists_chars {after : List Char} {v : WrittenValue} (hv : v.Proper after) :
    ∃ open' close : List Char, v.chars = open' ++ (v.text ++ close) ∧
      byteLength open' = v.margin := by
  cases v with
  | quoted quote text => exact ⟨[quote], [quote], rfl, by simp [byteLength, margin]⟩
  | bare text => exact ⟨[], [], by simp [WrittenValue.chars, WrittenValue.text], rfl⟩

theorem WrittenAttribute.lossless {a : WrittenAttribute} {after : List Char} (ha : a.Proper after)
    (h : m.toList = front ++ (a.chars ++ back)) : (a.node (byteLength front)).Lossless m := by
  have hspan := a.span_node (byteLength front)
  obtain ⟨name, assigned⟩ := a
  refine ⟨?_, ?_, ?_, ?_⟩
  · rw [hspan]
    exact addressable_part h
  · have hname : ((⟨name, assigned⟩ : WrittenAttribute).node (byteLength front)).name =
        String.ofList name := by cases assigned <;> rfl
    rw [hspan, hname, String.toList_ofList]
    refine slice?_part (b := assigned.elim [] Assignment.chars ++ back) ?_
    rw [h, WrittenAttribute.chars, List.append_assoc]
  · cases assigned with
    | none => rintro v ⟨⟩
    | some w =>
      rintro v ⟨⟩
      obtain ⟨opens, closes, hchars, hmargin⟩ := WrittenValue.exists_chars (ha.assigned w rfl).value
      have hstart : byteLength front + byteLength name + byteLength w.before + 1 +
          byteLength w.after + w.value.margin =
            byteLength (front ++ (name ++ (w.before ++ '=' :: (w.after ++ opens)))) := by
        simp [byteLength, byteLength_append, Char.utf8Size, hmargin]
        omega
      have hall : byteLength (WrittenAttribute.chars ⟨name, some w⟩) = byteLength name +
          (byteLength w.before + (1 + (byteLength w.after +
            (w.value.margin + (byteLength w.value.text + byteLength closes))))) := by
        simp [WrittenAttribute.chars, Assignment.chars, hchars, byteLength, byteLength_append,
          Char.utf8Size, hmargin]
      constructor
      · simp only [WrittenAttribute.node, Span.contains, hall, Bool.and_eq_true, decide_eq_true_eq]
        omega
      · simp only [WrittenAttribute.node, hstart]
        refine slice?_part (b := closes ++ back) ?_
        rw [h]
        simp [WrittenAttribute.chars, Assignment.chars, hchars]
  · cases assigned with
    | none =>
      intro _
      refine ⟨rfl, ?_⟩
      rw [hspan]
      have hchars : WrittenAttribute.chars ⟨name, none⟩ = name := List.append_nil name
      rw [hchars] at h ⊢
      exact slice?_part h
    | some w => intro hnone; cases hnone

theorem attributesOf_inOrder : ∀ {parts : List TagPart} {close : List Char} {pos stop : Nat},
    PartsProper close parts → pos + byteLength (partsChars parts) ≤ stop →
      InOrder pos stop ((attributesOf pos parts).map Attribute.span)
  | [], _, _, _, _, hle => hle
  | .blank c :: parts, _, pos, stop, h, hle => by
    have hle' : pos + byteLength [c] + byteLength (partsChars parts) ≤ stop := by
      simpa [partsChars, TagPart.chars, byteLength, Nat.add_assoc] using hle
    exact (attributesOf_inOrder h.2 hle').weaken (Nat.le_add_right _ _)
  | .slash :: parts, _, pos, stop, h, hle => by
    have hle' : pos + byteLength ['/'] + byteLength (partsChars parts) ≤ stop := by
      simpa [partsChars, TagPart.chars, byteLength, Nat.add_assoc] using hle
    exact (attributesOf_inOrder h.2 hle').weaken (Nat.le_add_right _ _)
  | .attr a :: parts, _, pos, stop, h, hle => by
    have hle' : pos + byteLength a.chars + byteLength (partsChars parts) ≤ stop := by
      simpa [partsChars, TagPart.chars, byteLength_append, Nat.add_assoc] using hle
    have hpos : 0 < byteLength a.chars := by
      have := Text.byteLength_pos h.1.nonempty
      rw [WrittenAttribute.chars, byteLength_append]
      omega
    rw [attributesOf, List.map_cons, a.span_node]
    exact ⟨Nat.le_refl _, by simp only; omega, attributesOf_inOrder h.2 hle'⟩

theorem attributesOf_lossless : ∀ {parts : List TagPart} {close front : List Char},
    PartsProper close parts → m.toList = front ++ (partsChars parts ++ back) →
      ∀ a ∈ attributesOf (byteLength front) parts, a.Lossless m
  | [], _, _, _, _, a, ha => by cases ha
  | part :: parts, close, front, h, hm, a, ha => by
    have hm' : m.toList = (front ++ part.chars) ++ (partsChars parts ++ back) := by
      simpa [partsChars] using hm
    have ih := attributesOf_lossless h.2 hm'
    rw [byteLength_append] at ih
    cases part with
    | blank c => exact ih a ha
    | slash => exact ih a ha
    | attr w =>
      rcases List.mem_cons.1 ha with rfl | ha
      · refine @WrittenAttribute.lossless m front (partsChars parts ++ back) w _ h.1 ?_
        rw [hm, ← List.append_assoc w.chars]
        rfl
      · exact ih a ha

theorem WrittenEnd.lossless {e : WrittenEnd} (h : m.toList = front ++ (e.chars ++ back)) :
    (e.node (byteLength front)).Lossless m := by
  refine ⟨addressable_part h, ?_, ?_⟩
  · simp [WrittenEnd.node, Span.contains, WrittenEnd.chars, byteLength, byteLength_append,
      Char.utf8Size]
    omega
  · have hname : byteLength front + 2 = byteLength (front ++ ['<', '/']) := by
      rw [byteLength_append]
      rfl
    simp only [WrittenEnd.node, hname]
    refine slice?_part (b := e.blanks ++ '>' :: back) ?_
    rw [h]
    simp [WrittenEnd.chars]

theorem WrittenTag.lossless {t : WrittenTag} (ht : t.Proper)
    (h : m.toList = front ++ (t.chars ++ back)) {span : Span} {endTag : Option EndTag}
    (hspan : Addressable m.toList span) (hstart : span.start = byteLength front)
    (hend : ∀ e ∈ endTag, e.Lossless m ∧ e.span.stop = span.stop) :
    ({ t.node (byteLength front) with span := span, endTag := endTag } : Tag).Lossless m := by
  have hname : byteLength front + 1 = byteLength (front ++ ['<']) := by
    rw [byteLength_append]
    rfl
  have hattrs : byteLength front + 1 + byteLength t.name =
      byteLength (front ++ '<' :: t.name) := by
    rw [hname, byteLength_append, byteLength_append, Nat.add_assoc, ← byteLength_append]
    rfl
  refine ⟨hspan, addressable_part h, hstart, ?_, ?_, ?_, hend⟩
  · simp only [WrittenTag.node, openTag, hname]
    refine slice?_part (b := partsChars t.parts ++ (tagEnd t.selfClosing ++ back)) ?_
    rw [h]
    simp [WrittenTag.chars]
  · have hpos : 0 < byteLength t.name := by
      obtain ⟨c, cs, hcs, -⟩ := ht.letter
      exact Text.byteLength_pos (by rw [hcs]; exact List.cons_ne_nil c cs)
    refine ⟨Nat.le_add_right _ _, ?_, attributesOf_inOrder ht.parts ?_⟩
    · simp only [WrittenTag.node, openTag]
      omega
    · simp only [WrittenTag.node, openTag, WrittenTag.chars, byteLength, byteLength_append]
      have : ('<' : Char).utf8Size = 1 := rfl
      omega
  · simp only [WrittenTag.node, openTag, hattrs]
    refine @attributesOf_lossless m (tagEnd t.selfClosing ++ back) _ _ _ ht.parts ?_
    rw [h]
    simp [WrittenTag.chars]

end

/-! ### Trees -/

theorem Written.span_node (pos : Nat) (w : Written) :
    (w.node pos).span = ⟨pos, pos + byteLength w.chars⟩ := by
  cases w with
  | text cs => rfl
  | comment cs => rfl
  | single tag => rfl
  | raw tag body stop =>
    simp only [Written.node, Node.span, Tag.closedBy, WrittenTag.node, openTag, WrittenEnd.node,
      Written.chars, byteLength_append, Nat.add_assoc]
  | container tag children stop =>
    cases stop with
    | none =>
      simp [Written.node, Node.span, Tag.stoppingAt, Tag.endingAt, WrittenTag.node, openTag,
        Written.chars, stopChars, byteLength_append, Nat.add_assoc]
    | some e =>
      simp [Written.node, Node.span, Tag.stoppingAt, Tag.closedBy, WrittenTag.node, openTag,
        WrittenEnd.node, Written.chars, stopChars, byteLength_append, Nat.add_assoc]
  | form header cases blanks => rfl

theorem Written.chars_pos {opened : List String} {inCase : Bool} {pos : Nat} {after : List Char} :
    ∀ {w : Written}, w.Proper opened inCase pos after → 0 < byteLength w.chars
  | .text cs, h => by
    rw [Written.Proper] at h
    exact Text.byteLength_pos h.1
  | .comment cs, h => by
    rw [Written.Proper] at h
    cases h <;> exact Text.byteLength_pos (List.cons_ne_nil _ _)
  | .single tag, _ => Text.byteLength_pos (List.cons_ne_nil _ _)
  | .raw tag body stop, _ => Text.byteLength_pos (List.cons_ne_nil _ _)
  | .container tag children stop, _ => Text.byteLength_pos (List.cons_ne_nil _ _)
  | .form header cases blanks, _ => Text.byteLength_pos (List.cons_ne_nil _ _)

theorem tile_nodesAll {ws : List Written} {opened : List String} {inCase : Bool} {pos : Nat}
    {after : List Char} (h : ProperAll opened inCase pos after ws) :
    Tile pos (pos + byteLength (charsAll ws)) ((nodesAll pos ws).map Node.span) := by
  induction ws generalizing pos with
  | nil => rfl
  | cons w ws ih =>
    rw [ProperAll] at h
    have hpos := Written.chars_pos h.1
    have ih := ih h.2.2
    rw [charsAll, byteLength_append, nodesAll, List.map_cons, w.span_node, ← Nat.add_assoc]
    exact ⟨rfl, by simp only; omega, ih⟩

theorem Written.isText_node (pos : Nat) (w : Written) : (w.node pos).isText = w.isText := by
  cases w <;> rfl

theorem textsApart_nodesAll : ∀ {ws : List Written} {opened : List String} {inCase : Bool}
    {pos : Nat} {after : List Char}, ProperAll opened inCase pos after ws →
      TextsApart (nodesAll pos ws)
  | [], _, _, _, _, _ => trivial
  | [w], _, _, _, _, _ => trivial
  | v :: w :: ws, _, _, pos, _, h => by
    rw [ProperAll] at h
    refine ⟨?_, textsApart_nodesAll h.2.2⟩
    rintro ⟨hv, hw⟩
    rw [Written.isText_node] at hv hw
    have := h.2.1 hv
    rw [startsWithText, hw] at this
    cases this

theorem Case.span_node (pos : Nat) (blanks label gap : List Char) (children : List Written) :
    ((WrittenCase.mk blanks label gap children).node pos).span =
      ⟨pos + byteLength blanks,
        pos + byteLength (WrittenCase.mk blanks label gap children).chars⟩ := rfl

theorem casesNodes_inOrder : ∀ {cs : List WrittenCase} {opened : List String} {pos stop : Nat}
    {after : List Char}, CasesProper opened pos after cs →
      pos + byteLength (casesChars cs) ≤ stop →
        InOrder pos stop ((casesNodes pos cs).map Case.span)
  | [], _, _, _, _, _, hle => hle
  | .mk blanks label gap children :: cs, _, pos, stop, _, h, hle => by
    rw [CasesProper] at h
    rw [casesChars, byteLength_append, ← Nat.add_assoc] at hle
    rw [casesNodes, List.map_cons, Case.span_node]
    refine ⟨Nat.le_add_right _ _, ?_, casesNodes_inOrder h.2 hle⟩
    have hbehind : byteLength blanks < byteLength (WrittenCase.mk blanks label gap children).chars := by
      rw [WrittenCase.chars, byteLength_append]
      exact Nat.lt_add_of_pos_right (Text.byteLength_pos (by simp))
    exact Nat.add_lt_add_left hbehind pos

theorem WrittenHeader.lossless {m : String} {front back : List Char} {h : WrittenHeader}
    (hh : h.Proper) (hm : m.toList = front ++ '{' :: (h.chars ++ back)) {span : Span}
    {cases : List Span} (hstart : span.start = byteLength front)
    (hcases : InOrder (byteLength front + 1 + byteLength h.chars) span.stop cases) :
    h.node.Lossless m span cases := by
  obtain ⟨a, b, hab, -⟩ := Text.exists_trim Text.isBlank h.switchValue
  obtain ⟨c, d, hcd, -⟩ := Text.exists_trim Text.isBlank h.kind
  have hswitch := Text.byteLength_pos hh.switchValue
  have hkind := Text.byteLength_pos hh.kind
  generalize hs : Text.trim Text.isBlank h.switchValue = s at *
  generalize hk : Text.trim Text.isBlank h.kind = k at *
  have hchars : h.chars = a ++ (s ++ (b ++ ',' :: (c ++ (k ++ (d ++ [',']))))) := by
    rw [WrittenHeader.chars, hab, hcd]
    simp
  have hlen : byteLength h.chars = byteLength a + (byteLength s + (byteLength b +
      (1 + (byteLength c + (byteLength k + (byteLength d + 1)))))) := by
    rw [hchars]
    simp [byteLength, byteLength_append, Char.utf8Size]
  refine ⟨⟨byteLength (front ++ '{' :: a), byteLength (front ++ '{' :: a) + byteLength s⟩,
    ⟨byteLength (front ++ '{' :: (a ++ (s ++ (b ++ ',' :: c)))), byteLength (front ++ '{' ::
      (a ++ (s ++ (b ++ ',' :: c)))) + byteLength k⟩, ?_, ?_, ?_⟩
  · rw [slice?_part (b := b ++ ',' :: (c ++ (k ++ (d ++ ',' :: back))))]
    · rw [WrittenHeader.node, hs]
    · rw [hm, hchars]
      simp
  · rw [slice?_part (b := d ++ ',' :: back)]
    · rw [WrittenHeader.node, hk]
    · rw [hm, hchars]
      simp
  · have hbrace : ('{' : Char).utf8Size = 1 ∧ (',' : Char).utf8Size = 1 := ⟨rfl, rfl⟩
    refine ⟨?_, ?_, ?_, ?_, hcases.weaken ?_⟩ <;>
      simp only [byteLength, byteLength_append, hstart, hbrace] <;> omega

theorem rawChildren_lossless {m : String} {front body back : List Char}
    (h : m.toList = front ++ (body ++ back)) :
    Tile (byteLength front) (byteLength front + byteLength body)
        ((rawChildren (byteLength front) body).map Node.span) ∧
      TextsApart (rawChildren (byteLength front) body) ∧
        LosslessAll m (rawChildren (byteLength front) body) := by
  cases body with
  | nil => exact ⟨rfl, trivial, by rw [rawChildren]; exact trivial⟩
  | cons c cs =>
    have hpos := Text.byteLength_pos (List.cons_ne_nil c cs)
    have haddr := addressable_part h
    rw [rawChildren, List.isEmpty_cons, if_neg Bool.false_ne_true, LosslessAll, LosslessAll,
      Node.Lossless]
    refine ⟨⟨rfl, ?_, rfl⟩, trivial, haddr, trivial⟩
    simp only [Node.span]
    omega

/-- An element with a body, from what is inside the body. -/
theorem element_lossless {m : String} {front body back : List Char} {t : WrittenTag}
    {stop : Option WrittenEnd} {children : List Node} (ht : t.Proper) (hsingle : t.isSingle = false)
    (hm : m.toList = front ++ (t.chars ++ (body ++ (stopChars stop ++ back))))
    (htile : Tile (byteLength (front ++ t.chars)) (byteLength (front ++ t.chars) + byteLength body)
      (children.map Node.span))
    (hapart : TextsApart children) (hall : LosslessAll m children) :
    (Node.element ((t.node (byteLength front)).stoppingAt
      (byteLength front + byteLength t.chars + byteLength body) stop) children).Lossless m := by
  rw [byteLength_append] at htile
  rw [Node.Lossless]
  have hnone : ((t.node (byteLength front)).stoppingAt
      (byteLength front + byteLength t.chars + byteLength body) stop).selfClosing = t.selfClosing ∧
      ((t.node (byteLength front)).stoppingAt
        (byteLength front + byteLength t.chars + byteLength body) stop).isVoid =
          isVoid (String.ofList t.name) := by cases stop <;> exact ⟨rfl, rfl⟩
  refine ⟨?_, ?_, hapart, ?_, hall⟩
  · cases stop with
    | none =>
      have haddr := addressable_part (m := m) (a := front) (p := t.chars ++ body) (b := back)
        (by rw [hm]; simp [stopChars])
      rw [byteLength_append, ← Nat.add_assoc] at haddr
      exact WrittenTag.lossless ht hm haddr rfl fun e he => by cases he
    | some e =>
      have haddr := addressable_part (m := m) (a := front) (p := t.chars ++ (body ++ e.chars))
        (b := back) (by rw [hm]; simp [stopChars])
      rw [byteLength_append, byteLength_append, ← Nat.add_assoc, ← Nat.add_assoc] at haddr
      have hend : m.toList = (front ++ (t.chars ++ body)) ++ (e.chars ++ back) := by
        rw [hm]
        simp [stopChars]
      have hend' := WrittenEnd.lossless hend
      rw [byteLength_append, byteLength_append, ← Nat.add_assoc] at hend'
      refine WrittenTag.lossless ht hm haddr rfl fun x hx => ?_
      obtain rfl := Option.mem_some_iff.1 hx
      exact ⟨hend', rfl⟩
  · cases stop <;> exact htile
  · intro h
    rw [hnone.1, hnone.2] at h
    exact absurd h (Bool.eq_false_iff.1 hsingle)

mutual
theorem Written.lossless {m : String} : ∀ (w : Written) {opened : List String} {inCase : Bool}
    {after front back : List Char}, w.Proper opened inCase (byteLength front) after →
    m.toList = front ++ (w.chars ++ back) → (w.node (byteLength front)).Lossless m
  | .text cs, _, _, _, front, back, _, hm => by
    rw [Written.node, Node.Lossless]
    exact addressable_part hm
  | .comment cs, _, _, _, front, back, _, hm => by
    rw [Written.node, Node.Lossless]
    exact addressable_part hm
  | .single tag, _, _, _, front, back, h, hm => by
    rw [Written.Proper] at h
    have haddr := addressable_part hm
    have htag := @WrittenTag.lossless m front back tag h.1 hm _ none haddr rfl fun e he => by cases he
    rw [Written.node, Node.Lossless]
    exact ⟨htag, rfl, trivial, fun _ => ⟨rfl, rfl, rfl⟩, trivial⟩
  | .raw tag body stop, _, _, _, front, back, h, hm => by
    rw [Written.Proper] at h
    obtain ⟨htag, hsingle, -, -, -⟩ := h
    rw [Written.chars, List.append_assoc, List.append_assoc] at hm
    have hbody : m.toList = (front ++ tag.chars) ++ (body ++ (stop.chars ++ back)) := by
      rw [hm, List.append_assoc]
    obtain ⟨htile, hapart, hall⟩ := rawChildren_lossless hbody
    have h := @element_lossless m front body back tag (some stop) _ htag hsingle hm htile hapart hall
    rw [byteLength_append] at h
    exact h
  | .container tag children stop, _, _, _, front, back, h, hm => by
    rw [Written.Proper] at h
    obtain ⟨htag, hsingle, -, hchildren, -⟩ := h
    rw [Written.chars, List.append_assoc, List.append_assoc] at hm
    rw [← byteLength_append] at hchildren
    have hbody : m.toList = (front ++ tag.chars) ++
        (charsAll children ++ (stopChars stop ++ back)) := by
      rw [hm, List.append_assoc]
    have hall := losslessAll_nodesAll children hchildren hbody
    have h := element_lossless htag hsingle hm (tile_nodesAll hchildren)
      (textsApart_nodesAll hchildren) hall
    rw [byteLength_append] at h
    exact h
  | .form header cases blanks, _, _, _, front, back, h, hm => by
    rw [Written.Proper] at h
    obtain ⟨hheader, hcases, -⟩ := h
    have haddr := addressable_part hm
    have hopen : m.toList = front ++ '{' :: (header.chars ++
        (casesChars cases ++ (blanks ++ '}' :: back))) := by
      rw [hm, Written.chars]
      simp
    have hbody : m.toList = (front ++ '{' :: header.chars) ++
        (casesChars cases ++ (blanks ++ '}' :: back)) := by
      rw [hopen]
      simp
    have hstart : byteLength front + 1 + byteLength header.chars =
        byteLength (front ++ '{' :: header.chars) := by
      rw [byteLength_append, byteLength, Nat.add_assoc]
      rfl
    rw [hstart] at hcases
    have hall := losslessCases_casesNodes cases hcases hbody
    rw [Written.node, Node.Lossless, hstart]
    refine ⟨haddr, WrittenHeader.lossless hheader hopen rfl ?_, hall⟩
    rw [hstart]
    refine casesNodes_inOrder hcases ?_
    rw [byteLength_append]
    simp [Written.chars, byteLength, byteLength_append, Char.utf8Size]
    omega

theorem losslessAll_nodesAll {m : String} : ∀ (ws : List Written) {opened : List String}
    {inCase : Bool} {after front back : List Char},
    ProperAll opened inCase (byteLength front) after ws →
    m.toList = front ++ (charsAll ws ++ back) → LosslessAll m (nodesAll (byteLength front) ws)
  | [], _, _, _, _, _, _, _ => by rw [nodesAll, LosslessAll]; trivial
  | w :: ws, _, _, _, front, back, h, hm => by
    rw [ProperAll] at h
    rw [charsAll, List.append_assoc] at hm
    rw [nodesAll, LosslessAll, ← byteLength_append]
    refine ⟨w.lossless h.1 hm, ?_⟩
    have hm' : m.toList = (front ++ w.chars) ++ (charsAll ws ++ back) := by rw [hm, List.append_assoc]
    exact losslessAll_nodesAll ws (byteLength_append front w.chars ▸ h.2.2) hm'

theorem losslessCases_casesNodes {m : String} : ∀ (cs : List WrittenCase) {opened : List String}
    {after front back : List Char}, CasesProper opened (byteLength front) after cs →
    m.toList = front ++ (casesChars cs ++ back) →
      LosslessCases m (casesNodes (byteLength front) cs)
  | [], _, _, _, _, _, _ => by rw [casesNodes, LosslessCases]; trivial
  | .mk blanks label gap children :: cs, _, _, front, back, h, hm => by
    rw [CasesProper, WrittenCase.Proper] at h
    obtain ⟨⟨-, -, -, hgap, hchildren⟩, hcs⟩ := h
    have hopen : m.toList = front ++ (blanks ++ (label ++ (gap ++ '{' :: (charsAll children ++
        '}' :: (casesChars cs ++ back))))) := by
      rw [hm, casesChars, WrittenCase.chars]
      simp
    have hstart : byteLength front + byteLength blanks = byteLength (front ++ blanks) :=
      (byteLength_append _ _).symm
    have hlabel : byteLength front + byteLength blanks + byteLength label =
        byteLength (front ++ (blanks ++ label)) := by
      rw [byteLength_append, byteLength_append, Nat.add_assoc]
    have hbrace : byteLength front + byteLength blanks + byteLength label + byteLength gap + 1 =
        byteLength (front ++ (blanks ++ (label ++ (gap ++ ['{'])))) := by
      simp [byteLength, byteLength_append, Char.utf8Size, Nat.add_assoc]
    have hend : byteLength front + byteLength (WrittenCase.mk blanks label gap children).chars =
        byteLength (front ++ (blanks ++ (label ++ (gap ++ ['{'])))) + byteLength (charsAll children) +
          1 := by
      simp [WrittenCase.chars, byteLength, byteLength_append, Char.utf8Size, Nat.add_assoc]
    rw [hbrace] at hchildren
    have hinside : m.toList = (front ++ (blanks ++ (label ++ (gap ++ ['{'])))) ++
        (charsAll children ++ '}' :: (casesChars cs ++ back)) := by
      rw [hopen]
      simp
    have hall := losslessAll_nodesAll children hchildren hinside
    rw [casesNodes, WrittenCase.node, LosslessCases, hbrace]
    refine ⟨⟨_, _, ⟨?_, ?_, ⟨gap, hgap, ?_⟩, ?_⟩, tile_nodesAll hchildren,
      textsApart_nodesAll hchildren, hall⟩, ?_⟩
    · have haddr := addressable_part (m := m) (a := front ++ blanks)
        (p := label ++ (gap ++ '{' :: (charsAll children ++ ['}']))) (b := casesChars cs ++ back)
        (by rw [hopen]; simp)
      rw [byteLength_append, Nat.add_assoc, ← byteLength_append blanks] at haddr
      exact haddr
    · rw [String.toList_ofList, hstart]
      refine slice?_part (b := gap ++ '{' :: (charsAll children ++ '}' :: (casesChars cs ++ back))) ?_
      rw [hopen]
      simp
    · have hslice := slice?_part (m := m) (a := front ++ (blanks ++ label)) (p := gap ++ ['{'])
        (b := charsAll children ++ '}' :: (casesChars cs ++ back)) (by rw [hopen]; simp)
      rw [← byteLength_append, List.append_assoc, List.append_assoc] at hslice
      rw [String.toList_ofList, hlabel]
      exact hslice
    · have hslice := slice?_part (m := m)
        (a := front ++ (blanks ++ (label ++ (gap ++ ['{']))) ++ charsAll children) (p := ['}'])
        (b := casesChars cs ++ back) (by rw [hinside]; simp)
      rw [byteLength_append] at hslice
      rw [hend]
      exact hslice
    · have hrest : m.toList = (front ++ (WrittenCase.mk blanks label gap children).chars) ++
          (casesChars cs ++ back) := by
        rw [hm, casesChars]
        simp
      rw [← byteLength_append] at hcs ⊢
      exact losslessCases_casesNodes cs hcs hrest
end

/-- The tree of a template is lossless: its roots tile the whole text, no two texts stand side by
    side, and every node below keeps what it was read from. -/
theorem parse_lossless {text : String} {nodes : List Node} (h : parse text = .ok nodes) :
    Tile 0 (byteLength text.toList) (nodes.map Node.span) ∧ TextsApart nodes ∧
      LosslessAll text nodes := by
  obtain ⟨ws, hws, htext, rfl⟩ := parse_eq_ok_iff.1 h
  have hall : text.toList = [] ++ (charsAll ws ++ []) := by rw [htext]; simp
  refine ⟨?_, textsApart_nodesAll hws, @losslessAll_nodesAll text ws [] false [] [] [] hws hall⟩
  rw [htext]
  have htile := tile_nodesAll hws
  rwa [Nat.zero_add] at htile

/-- A quoted value, an element closed by its end tag, an expansion form, and a text in each. -/
theorem parse_lossless_form :
    ∃ nodes, parse "<p a='b'>x</p>{n, k, o {y}}" = .ok nodes ∧
      nodes.map Node.span = [⟨0, 14⟩, ⟨14, 27⟩] ∧ Tile 0 27 (nodes.map Node.span) ∧
        TextsApart nodes ∧ LosslessAll "<p a='b'>x</p>{n, k, o {y}}" nodes := by
  have h : parse "<p a='b'>x</p>{n, k, o {y}}" = .ok
      [.element ⟨"p", [⟨"a", "b", ⟨3, 8⟩, some ⟨6, 7⟩⟩], ⟨0, 14⟩, ⟨0, 9⟩, ⟨1, 2⟩,
          some ⟨"p", ⟨10, 14⟩, ⟨12, 13⟩⟩, false⟩ [.text ⟨9, 10⟩],
        .expansion ⟨"n", "k"⟩ ⟨14, 27⟩ [.mk "o" ⟨21, 26⟩ [.text ⟨24, 25⟩]]] := by
    simp [parse_eq, Text.Cursor.ofString, siblingsFrom_eq, elementFrom_eq, bodyFrom,
      attributesFrom_eq, attributeFrom_eq, valueFrom_eq, formFrom?_eq, headerFrom?_eq,
      headerPartFrom?_eq, casesFrom?_eq, Opening.of, isLetter, Text.Cursor.skip, Text.Cursor.take,
      Text.Cursor.skipWhile, Text.Cursor.peek, Text.Cursor.past?, Text.cutFirst?, Text.afterStart?,
      isTagNameChar, isAttributeNameChar, Text.isAsciiBlank, byteLength, Char.utf8Size, openTag,
      isRawText, Tag.isVoid, isVoid, sameName, Text.sameName, Text.lower, rawTextNames, voidNames,
      isPlain, readEndTag, isEndNameChar, Tag.closedBy, prepend, Except.map, flush, isHeaderChar,
      Text.trim, Text.isBlank, isWordChar, isLabelChar]
  have htile := (parse_lossless h).1
  exact ⟨_, h, rfl, htile, (parse_lossless h).2⟩

end RouterShift.Markup
