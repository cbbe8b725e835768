import RouterShift.Proofs.Markup.Outlets

/-! Migration of a template as it is written. Each part of a written template stays, or is replaced
    by what a migration makes of it (`Written.pieces`); reading the template, collecting the
    replacements by their spans and making them comes to the same text (`migrate_charsAll`). -/

namespace RouterShift.Markup
open Text (byteLength byteLength_append)
open Edit (Piece Leads Follows before after edits)

/-! ### Tags -/

/-- The value of an attribute; a bare one has the empty value. -/
def WrittenAttribute.value (a : WrittenAttribute) : List Char :=
  a.assigned.elim [] fun v => v.value.text

/-- What an attribute becomes, wherever it stands. -/
def WrittenAttribute.translated? (a : WrittenAttribute) : Option String :=
  translateAttribute? ⟨String.ofList a.name, String.ofList a.value, ⟨0, 0⟩, none⟩

def WrittenAttribute.piece (a : WrittenAttribute) : Piece :=
  match a.translated? with
  | some text => .swap a.chars text.toList
  | none => .keep a.chars

def TagPart.piece : TagPart → Piece
  | blank c => .keep [c]
  | slash => .keep ['/']
  | attr a => a.piece

def TagPart.attribute? : TagPart → Option WrittenAttribute
  | attr a => some a
  | _ => none

/-- The name of the outlet an element becomes. -/
def WrittenTag.view? (t : WrittenTag) : Option (List Char) :=
  ((t.parts.filterMap TagPart.attribute?).find? (String.ofList ·.name = Vocabulary.view)).map (·.value)

/-- The element is a legacy outlet by its name. -/
def WrittenTag.isOutlet (t : WrittenTag) : Bool := String.ofList t.name ∈ Vocabulary.outletTags

def namePiece (isOutlet : Bool) (name : List Char) : Piece :=
  if isOutlet then .swap name Vocabulary.routerOutlet.toList else .keep name

/-- A start tag of an element that becomes no outlet by an attribute. -/
def WrittenTag.pieces (t : WrittenTag) : List Piece :=
  .keep ['<'] :: namePiece t.isOutlet t.name
    :: (t.parts.map TagPart.piece ++ [.keep (tagEnd t.selfClosing)])

def WrittenEnd.pieces (isOutlet : Bool) (e : WrittenEnd) : List Piece :=
  [.keep ['<', '/'], namePiece isOutlet e.name, .keep (e.blanks ++ ['>'])]

def stopPieces (isOutlet : Bool) (stop : Option WrittenEnd) : List Piece :=
  stop.elim [] (WrittenEnd.pieces isOutlet)

/-- The end tag of an outlet, which is put in if there was none; `isDone` says that one was put in
    at the same place already. -/
def outletStop (isDone : Bool) : Option WrittenEnd → List Piece
  | some e => [.swap e.chars outletEnd.toList]
  | none => if isDone then [] else [.swap [] outletEnd.toList]

/-! ### Nodes -/

mutual
/-- An end tag is put in at the end of a piece. -/
def Written.inserts : Written → Bool
  | .container tag children none => tag.view?.isSome || insertsLast children
  | _ => false

def insertsLast : List Written → Bool
  | [] => false
  | w :: ws => if ws.isEmpty then w.inserts else insertsLast ws
end

mutual
def Written.pieces : Written → List Piece
  | .text cs => [.keep cs]
  | .comment cs => [.keep cs]
  | .single tag =>
    match tag.view? with
    | some name => [.swap tag.chars (outletStart (String.ofList name) ++ outletEnd).toList]
    | none => tag.pieces
  | .raw tag body stop =>
    match tag.view? with
    | some name => [.swap tag.chars (outletStart (String.ofList name)).toList, .keep body,
        .swap stop.chars outletEnd.toList]
    | none => tag.pieces ++ (.keep body :: stop.pieces tag.isOutlet)
  | .container tag children stop =>
    match tag.view? with
    | some name => .swap tag.chars (outletStart (String.ofList name)).toList
        :: (piecesAll children ++ outletStop (insertsLast children) stop)
    | none => tag.pieces ++ (piecesAll children ++ stopPieces tag.isOutlet stop)
  | .form header cases blanks =>
    .keep ('{' :: header.chars) :: (casesPieces cases ++ [.keep (blanks ++ ['}'])])

def piecesAll : List Written → List Piece
  | [] => []
  | w :: ws => w.pieces ++ piecesAll ws

def casesPieces : List WrittenCase → List Piece
  | [] => []
  | .mk blanks label gap children :: cs =>
    .keep (blanks ++ (label ++ (gap ++ ['{']))) :: (piecesAll children ++ (.keep ['}'] :: casesPieces cs))
end

/-- The template after a migration. -/
def migratedAll (ws : List Written) : List Char := after (piecesAll ws)

/-! ### The text the pieces are cut from -/

@[simp] theorem before_piece (a : WrittenAttribute) : a.piece.before = a.chars := by
  rw [WrittenAttribute.piece]
  split <;> rfl

@[simp] theorem before_parts : ∀ parts : List TagPart,
    before (parts.map TagPart.piece) = partsChars parts
  | [] => rfl
  | part :: parts => by
    rw [List.map_cons, Edit.before_cons, before_parts parts]
    cases part with
    | blank c => rfl
    | slash => rfl
    | attr a => rw [TagPart.piece, before_piece]; rfl

@[simp] theorem before_namePiece (isOutlet : Bool) (name : List Char) :
    (namePiece isOutlet name).before = name := by
  rw [namePiece]
  split <;> rfl

@[simp] theorem WrittenTag.before_pieces (t : WrittenTag) : before t.pieces = t.chars := by
  simp [WrittenTag.pieces, WrittenTag.chars]

@[simp] theorem WrittenEnd.before_pieces (isOutlet : Bool) (e : WrittenEnd) :
    before (e.pieces isOutlet) = e.chars := by
  simp [WrittenEnd.pieces, WrittenEnd.chars]

@[simp] theorem before_stopPieces (isOutlet : Bool) (stop : Option WrittenEnd) :
    before (stopPieces isOutlet stop) = stopChars stop := by
  cases stop with
  | none => rfl
  | some e => exact e.before_pieces isOutlet

@[simp] theorem before_outletStop (isDone : Bool) (stop : Option WrittenEnd) :
    before (outletStop isDone stop) = stopChars stop := by
  cases stop with
  | none => cases isDone <;> rfl
  | some e => exact List.append_nil _

mutual
theorem Written.before_pieces : ∀ w : Written, before w.pieces = w.chars
  | .text cs => by simp [Written.pieces, Written.chars]
  | .comment cs => by simp [Written.pieces, Written.chars]
  | .single tag => by
    rw [Written.pieces, Written.chars]
    split
    · exact List.append_nil _
    · exact tag.before_pieces
  | .raw tag body stop => by
    rw [Written.pieces, Written.chars]
    split <;> simp
  | .container tag children stop => by
    rw [Written.pieces, Written.chars]
    split <;> simp [before_piecesAll children]
  | .form header cases blanks => by
    simp [Written.pieces, Written.chars, before_casesPieces cases]

theorem before_piecesAll : ∀ ws : List Written, before (piecesAll ws) = charsAll ws
  | [] => by rw [piecesAll, charsAll]; rfl
  | w :: ws => by rw [piecesAll, charsAll, Edit.before_append, w.before_pieces, before_piecesAll ws]

theorem before_casesPieces : ∀ cs : List WrittenCase, before (casesPieces cs) = casesChars cs
  | [] => by rw [casesPieces, casesChars]; rfl
  | .mk blanks label gap children :: cs => by
    simp [casesPieces, casesChars, WrittenCase.chars, before_piecesAll children,
      before_casesPieces cs]
end

/-! ### Where the elements are -/

theorem Layout.nil {start stop : Nat} : Layout start stop [] := by
  refine ⟨?_, ?_, .nil⟩
  · intro t ht
    cases ht
  · intro t ht
    cases ht

theorem Layout.append {start mid stop : Nat} {ts us : List Tag} (hts : Layout start mid ts)
    (hus : Layout mid stop us) (hstart : start ≤ mid) (hstop : mid ≤ stop) :
    Layout start stop (ts ++ us) := by
  refine ⟨?_, ?_, ?_⟩
  · intro t ht
    rcases List.mem_append.1 ht with ht | ht
    · exact hts.placed t ht
    · exact hus.placed t ht
  · intro t ht
    rcases List.mem_append.1 ht with ht | ht
    · have := hts.within t ht
      omega
    · have := hus.within t ht
      omega
  · rw [List.pairwise_append]
    refine ⟨hts.ordered, hus.ordered, fun t ht u hu => .inl ?_⟩
    have h1 := hts.within t ht
    have h2 := hus.within u hu
    omega

theorem Layout.weaken {start start' stop stop' : Nat} {ts : List Tag} (h : Layout start' stop' ts)
    (hstart : start ≤ start') (hstop : stop' ≤ stop) : Layout start stop ts := by
  refine ⟨h.placed, fun t ht => ?_, h.ordered⟩
  have := h.within t ht
  omega

theorem Layout.element {t : Tag} {us : List Tag} (ht : t.Placed)
    (hus : Layout t.startTag.stop t.bodyStop us) : Layout t.span.start t.span.stop (t :: us) := by
  have h1 := ht.start
  have h2 := ht.body
  have h3 := ht.stop
  have h4 := ht.startTag_lt
  refine ⟨?_, ?_, ?_⟩
  · intro u hu
    rcases List.mem_cons.1 hu with rfl | hu
    · exact ht
    · exact hus.placed u hu
  · intro u hu
    rcases List.mem_cons.1 hu with rfl | hu
    · exact ⟨Nat.le_refl _, Nat.le_refl _⟩
    · have := hus.within u hu
      omega
  · exact .cons (fun u hu => .inr (hus.within u hu)) hus.ordered

theorem WrittenTag.Proper.inOrder {t : WrittenTag} (ht : t.Proper) (pos : Nat) :
    InOrder (t.node pos).startTag.start (t.node pos).startTag.stop
      ((t.node pos).nameSpan :: (t.node pos).attributes.map Attribute.span) := by
  have hpos : 0 < byteLength t.name := by
    obtain ⟨c, cs, hcs, -⟩ := ht.letter
    exact Text.byteLength_pos (by rw [hcs]; exact List.cons_ne_nil c cs)
  have hsize : ('<' : Char).utf8Size = 1 := rfl
  refine ⟨Nat.le_add_right _ _, ?_, attributesOf_inOrder ht.parts ?_⟩
  · simp only [WrittenTag.node, openTag]
    omega
  · simp only [WrittenTag.node, openTag, WrittenTag.chars, byteLength, byteLength_append]
    omega

/-- An element with a body is placed where it is written. -/
theorem WrittenTag.placed {t : WrittenTag} (ht : t.Proper) (hsingle : t.isSingle = false)
    {pos inside : Nat} (hinside : pos + byteLength t.chars ≤ inside) {stop : Option WrittenEnd}
    (hstop : ∀ e ∈ stop, t.isOutlet = true → e.name ≠ []) :
    ((t.node pos).stoppingAt inside stop).Placed := by
  have horder := ht.inOrder pos
  cases stop with
  | none =>
    refine ⟨rfl, horder, hinside, Nat.le_refl _, fun e he => (by cases he), fun _ => rfl⟩
  | some e =>
    have hlen : 0 < byteLength e.chars := Text.byteLength_pos (List.cons_ne_nil _ _)
    refine ⟨rfl, horder, hinside, Nat.le_add_right _ _, ?_, fun h => ?_⟩
    · intro x hx
      obtain rfl := Option.mem_some_iff.1 hx
      refine ⟨?_, rfl, ?_, fun hname => ?_⟩
      · simp only [WrittenEnd.node]
        omega
      · simp [WrittenEnd.node, contains_iff, WrittenEnd.chars, byteLength, byteLength_append,
          Char.utf8Size]
        omega
      · have := Text.byteLength_pos (hstop e rfl (decide_eq_true hname))
        simp only [WrittenEnd.node]
        omega
    · exact absurd h (Bool.eq_false_iff.1 hsingle)

theorem isOutlet_of_isRaw {t : WrittenTag} (h : t.isRaw = true) : t.isOutlet = false := by
  rw [Bool.eq_false_iff]
  intro hout
  have hmem : String.ofList t.name ∈ Vocabulary.outletTags := of_decide_eq_true hout
  rw [WrittenTag.isRaw] at h
  rcases List.mem_cons.1 hmem with hname | hmem
  · rw [hname] at h
    revert h
    decide
  · rw [List.mem_singleton.1 hmem] at h
    revert h
    decide

theorem ne_nil_of_sameName {a b : List Char} (hb : b ≠ [])
    (h : sameName (String.ofList a) (String.ofList b) = true) : a ≠ [] := by
  rintro rfl
  simp only [sameName, Text.sameName, String.toList_ofList, beq_iff_eq] at h
  exact hb (List.map_eq_nil_iff.1 h.symm)

mutual
theorem Written.layout : ∀ (w : Written) {opened : List String} {inCase : Bool} {pos : Nat}
    {after : List Char}, w.Proper opened inCase pos after →
      Layout pos (pos + byteLength w.chars) (w.node pos).tags
  | .text cs, _, _, _, _, _ => by rw [Written.node, Node.tags]; exact .nil
  | .comment cs, _, _, _, _, _ => by rw [Written.node, Node.tags]; exact .nil
  | .single tag, _, _, pos, _, h => by
    rw [Written.Proper] at h
    have horder := h.1.inOrder pos
    have hplaced : (tag.node pos).Placed :=
      ⟨rfl, horder, Nat.le_refl _, Nat.le_refl _, fun e he => (by cases he), fun _ => rfl⟩
    rw [Written.node, Node.tags, tagsAll]
    exact .element hplaced .nil
  | .raw tag body stop, _, _, pos, _, h => by
    rw [Written.Proper] at h
    obtain ⟨htag, hsingle, hraw, -, -⟩ := h
    have hplaced := @WrittenTag.placed tag htag hsingle pos
      (pos + byteLength tag.chars + byteLength body) (Nat.le_add_right _ _) (some stop)
      (fun e _ hout => by rw [isOutlet_of_isRaw hraw] at hout; cases hout)
    have hspan := (Written.raw tag body stop).span_node pos
    have htags : tagsAll (rawChildren (pos + byteLength tag.chars) body) = [] := by
      rw [rawChildren]
      split <;> rfl
    have h := Layout.element hplaced .nil
    rw [Written.node] at hspan ⊢
    rw [Node.tags, htags]
    rw [Node.span] at hspan
    have hspan' : ((tag.node pos).stoppingAt (pos + byteLength tag.chars + byteLength body)
      (some stop)).span = _ := hspan
    rw [hspan'] at h
    exact h
  | .container tag children stop, _, _, pos, _, h => by
    rw [Written.Proper] at h
    obtain ⟨htag, hsingle, -, hchildren, hstop⟩ := h
    have hplaced := @WrittenTag.placed tag htag hsingle pos
      (pos + byteLength tag.chars + byteLength (charsAll children)) (Nat.le_add_right _ _) stop (by
        rintro e rfl -
        obtain ⟨c, cs, hcs, -⟩ := htag.letter
        exact ne_nil_of_sameName (by rw [hcs]; exact List.cons_ne_nil c cs) hstop.2)
    have hinside := layoutAll children hchildren
    have hspan := (Written.container tag children stop).span_node pos
    rw [Written.node] at hspan ⊢
    rw [Node.span] at hspan
    rw [Node.tags]
    have h := @Layout.element _ (tagsAll (nodesAll (pos + byteLength tag.chars) children)) hplaced
      (by cases stop <;> exact hinside)
    rw [hspan] at h
    exact h
  | .form header cases blanks, _, _, pos, _, h => by
    rw [Written.Proper] at h
    obtain ⟨-, hcases, -⟩ := h
    rw [Written.node, Node.tags]
    refine (layoutCases cases hcases).weaken (by omega) ?_
    simp [Written.chars, byteLength, byteLength_append, Char.utf8Size]
    omega

theorem layoutAll : ∀ (ws : List Written) {opened : List String} {inCase : Bool} {pos : Nat}
    {after : List Char}, ProperAll opened inCase pos after ws →
      Layout pos (pos + byteLength (charsAll ws)) (tagsAll (nodesAll pos ws))
  | [], _, _, _, _, _ => by rw [nodesAll, tagsAll]; exact .nil
  | w :: ws, _, _, pos, _, h => by
    rw [ProperAll] at h
    have hws := layoutAll ws h.2.2
    rw [nodesAll, tagsAll, charsAll, byteLength_append, ← Nat.add_assoc]
    exact (w.layout h.1).append hws (Nat.le_add_right _ _) (Nat.le_add_right _ _)

theorem layoutCases : ∀ (cs : List WrittenCase) {opened : List String} {pos : Nat}
    {after : List Char}, CasesProper opened pos after cs →
      Layout pos (pos + byteLength (casesChars cs)) (tagsCases (casesNodes pos cs))
  | [], _, _, _, _ => by rw [casesNodes, tagsCases]; exact .nil
  | .mk blanks label gap children :: cs, _, pos, _, h => by
    rw [CasesProper, WrittenCase.Proper] at h
    have hchildren := layoutAll children h.1.2.2.2.2
    have hcs := layoutCases cs h.2
    rw [casesNodes, WrittenCase.node, tagsCases, casesChars, byteLength_append, ← Nat.add_assoc]
    refine (hchildren.weaken (by omega) ?_).append hcs (Nat.le_add_right _ _) (Nat.le_add_right _ _)
    simp [WrittenCase.chars, byteLength, byteLength_append, Char.utf8Size]
    omega
end

end RouterShift.Markup
