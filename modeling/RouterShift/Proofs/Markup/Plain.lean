import RouterShift.Proofs.Markup.Migration

/-! Migration as a map on trees. For templates of the plain kind (texts, and elements with bare or
    quoted attributes) a migration is described without spans: an element that carries an outlet
    attribute becomes an outlet around its migrated children, the legacy outlets are renamed, and
    attributes are translated by a table. Migrating the rendered tree renders the migrated tree. -/

namespace RouterShift.Markup
open Text (byteLength StopsBefore stopsBefore_cons stopsBefore_append isAsciiBlank)
open Edit (Piece after edits)

/-- An attribute that is bare, or has a value in double quotes. -/
structure PlainAttribute where
  name : String
  value : Option String
  deriving DecidableEq

inductive PlainNode
  | text (text : String)
  | element (name : String) (attributes : List PlainAttribute) (children : List PlainNode)
  | selfClosing (name : String) (attributes : List PlainAttribute)
  | void (name : String) (attributes : List PlainAttribute)

/-! ### Rendering -/

def PlainAttribute.render (a : PlainAttribute) : List Char :=
  ' ' :: (a.name.toList ++ a.value.elim [] fun v => '=' :: '"' :: (v.toList ++ ['"']))

def renderStart (name : String) (attributes : List PlainAttribute) : List Char :=
  '<' :: (name.toList ++ attributes.flatMap PlainAttribute.render)

mutual
def PlainNode.render : PlainNode → List Char
  | .text text => text.toList
  | .element name attributes children =>
    renderStart name attributes ++ '>' :: (renderAll children ++ '<' :: '/' :: (name.toList ++ ['>']))
  | .selfClosing name attributes => renderStart name attributes ++ ['/', '>']
  | .void name attributes => renderStart name attributes ++ ['>']

def renderAll : List PlainNode → List Char
  | [] => []
  | node :: rest => node.render ++ renderAll rest
end

/-! ### Migrating -/

/-- The attribute by which only an exact match counts as active. -/
def exactAttribute : PlainAttribute := ⟨"[routerLinkActiveOptions]", some "\x7bexact: true\x7d"⟩

/-- The table of attributes. -/
def PlainAttribute.migrated (a : PlainAttribute) : List PlainAttribute :=
  let value := a.value.getD ""
  if a.name = "uiSref" then [⟨"[routerLink]", some s!"['{statePath value}']"⟩]
  else if a.name = "uiParams" then [⟨"[queryParams]", some value⟩]
  else if a.name = "uiSrefActive" then
    if value = "/" then [⟨"routerLinkActive", some "/"⟩, exactAttribute]
    else [⟨"routerLinkActive", some value⟩]
  else if a.name = "uiSrefActiveEq" then [⟨"routerLinkActive", some value⟩, exactAttribute]
  else [a]

/-- The value of the first outlet attribute. -/
def firstView? (attributes : List PlainAttribute) : Option String :=
  (attributes.find? (·.name = "ui-view")).map (·.value.getD "")

/-- The outlet an element becomes. -/
def outlet (view : String) (children : List PlainNode) : PlainNode :=
  .element "router-outlet" (if view = "" then [] else [⟨"[name]", some view⟩]) children

def migratedName (name : String) : String :=
  if name = "ui-router" ∨ name = "ui-view" then "router-outlet" else name

mutual
def PlainNode.migrated : PlainNode → PlainNode
  | .text text => .text text
  | .element name attributes children =>
    match firstView? attributes with
    | some view => outlet view (plainMigrated children)
    | none => .element (migratedName name) (attributes.flatMap PlainAttribute.migrated)
        (plainMigrated children)
  | .selfClosing name attributes =>
    match firstView? attributes with
    | some view => outlet view []
    | none => .selfClosing (migratedName name) (attributes.flatMap PlainAttribute.migrated)
  | .void name attributes =>
    match firstView? attributes with
    | some view => outlet view []
    | none => .void (migratedName name) (attributes.flatMap PlainAttribute.migrated)

def plainMigrated : List PlainNode → List PlainNode
  | [] => []
  | node :: rest => node.migrated :: plainMigrated rest
end

/-! ### Well-formed templates -/

structure PlainAttribute.WellFormed (a : PlainAttribute) : Prop where
  nonempty : a.name.toList ≠ []
  name : ∀ c ∈ a.name.toList, isAttributeNameChar c = true
  value : ∀ v ∈ a.value, '"' ∉ v.toList

structure NameWellFormed (name : String) : Prop where
  letter : ∃ c cs, name.toList = c :: cs ∧ isLetter c = true
  chars : ∀ c ∈ name.toList, isTagNameChar c = true
  notRaw : isRawText name = false

instance (a : PlainAttribute) : Decidable a.WellFormed :=
  decidable_of_iff (a.name.toList ≠ [] ∧ a.name.toList.all isAttributeNameChar = true ∧
    ∀ v ∈ a.value, '"' ∉ v.toList)
    ⟨fun ⟨h1, h2, h3⟩ => ⟨h1, List.all_eq_true.1 h2, h3⟩,
      fun ⟨h1, h2, h3⟩ => ⟨h1, List.all_eq_true.2 h2, h3⟩⟩

instance (name : String) : Decidable (NameWellFormed name) :=
  decidable_of_iff (name.toList.head?.any isLetter = true ∧
    name.toList.all isTagNameChar = true ∧ isRawText name = false) <| by
      constructor
      · rintro ⟨h1, h2, h3⟩
        obtain ⟨c, hc, hletter⟩ := (Option.any_eq_true _ _).1 h1
        obtain ⟨cs, hcs⟩ := List.head?_eq_some_iff.1 hc
        exact ⟨⟨c, cs, hcs, hletter⟩, List.all_eq_true.1 h2, h3⟩
      · rintro ⟨⟨c, cs, hcs, hletter⟩, h2, h3⟩
        exact ⟨by rw [hcs]; exact hletter, List.all_eq_true.2 h2, h3⟩

def PlainNode.isText : PlainNode → Bool
  | .text _ => true
  | _ => false

def plainStartsWithText : List PlainNode → Bool
  | [] => false
  | node :: _ => node.isText

mutual
/-- Elements with an end tag take children, and only those that never do may go without one. -/
def PlainNode.WellFormed : PlainNode → Prop
  | .text text => text.toList ≠ [] ∧ ∀ c ∈ text.toList, isPlain c = true
  | .element name attributes children =>
    NameWellFormed name ∧ isVoid name = false ∧ (∀ a ∈ attributes, a.WellFormed) ∧
      WellFormedAll children
  | .selfClosing name attributes => NameWellFormed name ∧ ∀ a ∈ attributes, a.WellFormed
  | .void name attributes =>
    NameWellFormed name ∧ isVoid name = true ∧ ∀ a ∈ attributes, a.WellFormed

/-- No two texts stand side by side. -/
def WellFormedAll : List PlainNode → Prop
  | [] => True
  | node :: rest => node.WellFormed ∧ (node.isText = true → plainStartsWithText rest = false) ∧
      WellFormedAll rest
end

/-! ### Plain templates as they are written -/

def PlainAttribute.written (a : PlainAttribute) : WrittenAttribute :=
  ⟨a.name.toList, a.value.map fun v => ⟨[], [], .quoted '"' v.toList⟩⟩

def PlainAttribute.parts (a : PlainAttribute) : List TagPart := [.blank ' ', .attr a.written]

def startTag (name : String) (attributes : List PlainAttribute) (selfClosing : Bool) : WrittenTag :=
  ⟨name.toList, attributes.flatMap PlainAttribute.parts, selfClosing⟩

mutual
def PlainNode.written : PlainNode → Written
  | .text text => .text text.toList
  | .element name attributes children =>
    .container (startTag name attributes false) (writtenAll children) (some ⟨name.toList, []⟩)
  | .selfClosing name attributes => .single (startTag name attributes true)
  | .void name attributes => .single (startTag name attributes false)

def writtenAll : List PlainNode → List Written
  | [] => []
  | node :: rest => node.written :: writtenAll rest
end

theorem partsChars_plain : ∀ attributes : List PlainAttribute,
    partsChars (attributes.flatMap PlainAttribute.parts) = attributes.flatMap PlainAttribute.render
  | [] => rfl
  | a :: attributes => by
    rw [List.flatMap_cons, List.flatMap_cons, partsChars_append, partsChars_plain attributes]
    congr 1
    obtain ⟨name, value⟩ := a
    cases value with
    | none => simp [partsChars, PlainAttribute.parts, TagPart.chars, PlainAttribute.written,
        WrittenAttribute.chars, PlainAttribute.render]
    | some v => simp [partsChars, PlainAttribute.parts, TagPart.chars, PlainAttribute.written,
        WrittenAttribute.chars, Assignment.chars, WrittenValue.chars, PlainAttribute.render]

theorem chars_startTag (name : String) (attributes : List PlainAttribute) (selfClosing : Bool) :
    (startTag name attributes selfClosing).chars =
      renderStart name attributes ++ tagEnd selfClosing := by
  simp [startTag, WrittenTag.chars, partsChars_plain, renderStart]

mutual
theorem PlainNode.chars_written : ∀ node : PlainNode, node.written.chars = node.render
  | .text text => by rw [PlainNode.written, PlainNode.render, Written.chars]
  | .element name attributes children => by
    rw [PlainNode.written, PlainNode.render, Written.chars, chars_startTag,
      charsAll_writtenAll children]
    simp [tagEnd, stopChars, WrittenEnd.chars]
  | .selfClosing name attributes => by
    rw [PlainNode.written, PlainNode.render, Written.chars, chars_startTag]
    rfl
  | .void name attributes => by
    rw [PlainNode.written, PlainNode.render, Written.chars, chars_startTag]
    rfl

theorem charsAll_writtenAll : ∀ nodes : List PlainNode, charsAll (writtenAll nodes) = renderAll nodes
  | [] => by rw [writtenAll, renderAll, charsAll]
  | node :: rest => by
    rw [writtenAll, renderAll, charsAll, node.chars_written, charsAll_writtenAll rest]
end

/-! ### They are found again -/

theorem textRun_of_isPlain {opened : List String} {inCase : Bool} {after : List Char} :
    ∀ {cs : List Char} {pos : Nat}, (∀ c ∈ cs, isPlain c = true) →
      TextRun opened inCase pos cs after
  | [], pos, _ => .done pos after
  | c :: cs, pos, h => .char pos c cs after (opening_of_isPlain (h c List.mem_cons_self) _)
      (textRun_of_isPlain fun d hd => h d (List.mem_cons_of_mem c hd))

theorem flatMap_parts (attributes : List PlainAttribute) :
    attributes.flatMap PlainAttribute.parts = spaced (attributes.map PlainAttribute.written) := by
  rw [spaced, List.flatMap_map]
  rfl

theorem PlainAttribute.WellFormed.isQuoted {a : PlainAttribute} (h : a.WellFormed) :
    a.written.IsQuoted := by
  refine ⟨h.nonempty, h.name, fun v hv => ?_⟩
  obtain ⟨value, hvalue, rfl⟩ := Option.map_eq_some_iff.1 hv
  exact ⟨'"', value.toList, rfl, .inl rfl, h.value value hvalue⟩

theorem startTag_proper {name : String} {attributes : List PlainAttribute} (selfClosing : Bool)
    (hname : NameWellFormed name) (h : ∀ a ∈ attributes, a.WellFormed) :
    (startTag name attributes selfClosing).Proper := by
  rw [startTag, flatMap_parts]
  refine spacedTag_proper selfClosing hname.letter hname.chars fun a ha => ?_
  obtain ⟨b, hb, rfl⟩ := List.mem_map.1 ha
  exact (h b hb).isQuoted

theorem isText_written (node : PlainNode) : node.written.isText = node.isText := by
  cases node <;> rfl

theorem startsWithText_writtenAll (nodes : List PlainNode) :
    startsWithText (writtenAll nodes) = plainStartsWithText nodes := by
  cases nodes with
  | nil => rfl
  | cons node rest => exact isText_written node

mutual
theorem PlainNode.proper_written : ∀ {node : PlainNode} {opened : List String} {inCase : Bool}
    {pos : Nat} {after : List Char}, node.WellFormed → node.written.Proper opened inCase pos after
  | .text text, _, _, _, _, h => by
    rw [PlainNode.WellFormed] at h
    rw [PlainNode.written, Written.Proper]
    exact ⟨h.1, textRun_of_isPlain h.2⟩
  | .element name attributes children, _, _, _, _, h => by
    rw [PlainNode.WellFormed] at h
    obtain ⟨hname, hvoid, hattrs, hchildren⟩ := h
    rw [PlainNode.written, Written.Proper]
    refine ⟨startTag_proper false hname hattrs, ?_, ?_, ?_, ⟨?_, fun c hc => (by cases hc)⟩, ?_⟩
    · simpa [WrittenTag.isSingle, startTag] using hvoid
    · simpa [WrittenTag.isRaw, startTag] using hname.notRaw
    · exact properAll_writtenAll hchildren rfl
    · intro c hc
      have := hname.chars c hc
      simp only [isTagNameChar, Bool.and_eq_true] at this
      rw [isEndNameChar, Bool.and_eq_true]
      exact this.1
    · simp [startTag, sameName, Text.sameName]
  | .selfClosing name attributes, _, _, _, _, h => by
    rw [PlainNode.WellFormed] at h
    rw [PlainNode.written, Written.Proper]
    exact ⟨startTag_proper true h.1 h.2, rfl⟩
  | .void name attributes, _, _, _, _, h => by
    rw [PlainNode.WellFormed] at h
    rw [PlainNode.written, Written.Proper]
    refine ⟨startTag_proper false h.1 h.2.2, ?_⟩
    simpa [WrittenTag.isSingle, startTag] using h.2.1

theorem properAll_writtenAll : ∀ {nodes : List PlainNode} {opened : List String} {inCase : Bool}
    {pos : Nat} {after : List Char}, WellFormedAll nodes → (stopOf inCase after).isSome = true →
      ProperAll opened inCase pos after (writtenAll nodes)
  | [], _, _, _, _, _, hstop => by
    rw [writtenAll, ProperAll]
    exact hstop
  | node :: rest, _, _, _, _, h, hstop => by
    rw [WellFormedAll] at h
    rw [writtenAll, ProperAll, isText_written, startsWithText_writtenAll]
    exact ⟨PlainNode.proper_written h.1, h.2.1, properAll_writtenAll h.2.2 hstop⟩
end

/-! ### What becomes of them -/

theorem attribute_migrated (a : PlainAttribute) :
    ' ' :: a.written.piece.after = a.migrated.flatMap PlainAttribute.render := by
  have hvalue : String.ofList a.written.value = a.value.getD "" := by
    obtain ⟨name, value⟩ := a
    cases value with
    | none => rfl
    | some v => simp [PlainAttribute.written, WrittenAttribute.value, WrittenValue.text]
  have hname : String.ofList a.written.name = a.name := String.ofList_toList
  have hkeep : ' ' :: a.written.chars = a.render := by
    have := partsChars_plain [a]
    simpa [PlainAttribute.parts, partsChars, TagPart.chars] using this
  rw [WrittenAttribute.piece, WrittenAttribute.translated?, hvalue, hname, translateAttribute?,
    PlainAttribute.migrated]
  simp only [Vocabulary.sref, Vocabulary.params, Vocabulary.srefActive, Vocabulary.srefActiveEq]
  by_cases h1 : a.name = "uiSref"
  · simp [h1, PlainAttribute.render, toString]
  by_cases h2 : a.name = "uiParams"
  · simp [h2, PlainAttribute.render, toString]
  by_cases h3 : a.name = "uiSrefActive"
  · by_cases hroot : a.value.getD "" = "/"
    · simp [h3, hroot, PlainAttribute.render, exactAttribute, exactOptions, toString]
    · simp [h3, hroot, PlainAttribute.render, toString]
  by_cases h4 : a.name = "uiSrefActiveEq"
  · simp [h4, PlainAttribute.render, exactAttribute, exactOptions, toString]
  simp [h1, h2, h3, h4, hkeep]

theorem after_parts : ∀ attributes : List PlainAttribute,
    after ((attributes.flatMap PlainAttribute.parts).map TagPart.piece) =
      (attributes.flatMap PlainAttribute.migrated).flatMap PlainAttribute.render
  | [] => rfl
  | a :: attributes => by
    rw [List.flatMap_cons, List.flatMap_cons, List.map_append, List.flatMap_append,
      Edit.after_append, after_parts attributes, ← attribute_migrated]
    simp [PlainAttribute.parts, TagPart.piece]

theorem after_namePiece (name : String) :
    (namePiece (decide (name ∈ Vocabulary.outletTags)) name.toList).after =
      (migratedName name).toList := by
  have hmem : name ∈ Vocabulary.outletTags ↔ name = "ui-router" ∨ name = "ui-view" := by
    simp [Vocabulary.outletTags, Vocabulary.view]
  rw [namePiece, migratedName]
  by_cases h : name ∈ Vocabulary.outletTags
  · rw [if_pos (decide_eq_true h), if_pos (hmem.1 h)]
    rfl
  · rw [if_neg (by simpa using h), if_neg fun h' => h (hmem.2 h')]
    rfl

theorem isOutlet_startTag (name : String) (attributes : List PlainAttribute) (selfClosing : Bool) :
    (startTag name attributes selfClosing).isOutlet = decide (name ∈ Vocabulary.outletTags) := by
  rw [WrittenTag.isOutlet, startTag, String.ofList_toList]

theorem after_startTag (name : String) (attributes : List PlainAttribute) (selfClosing : Bool) :
    after (startTag name attributes selfClosing).pieces =
      renderStart (migratedName name) (attributes.flatMap PlainAttribute.migrated) ++
        tagEnd selfClosing := by
  rw [WrittenTag.pieces, Edit.after_cons, Edit.after_cons, isOutlet_startTag, startTag,
    after_namePiece, Edit.after_append, after_parts]
  simp [renderStart]

theorem view?_startTag (name : String) (attributes : List PlainAttribute) (selfClosing : Bool) :
    (startTag name attributes selfClosing).view? = (firstView? attributes).map String.toList := by
  rw [WrittenTag.view?, startTag]
  simp only
  induction attributes with
  | nil => rfl
  | cons a attributes ih =>
    have hcons : (List.flatMap PlainAttribute.parts (a :: attributes)).filterMap
        TagPart.attribute? =
          a.written :: (attributes.flatMap PlainAttribute.parts).filterMap TagPart.attribute? := rfl
    have hname : String.ofList a.written.name = a.name := String.ofList_toList
    rw [hcons, firstView?, List.find?_cons, List.find?_cons, hname, Vocabulary.view]
    split
    · obtain ⟨name, value⟩ := a
      cases value with
      | none => rfl
      | some v => rfl
    · exact ih

/-- An outlet as it is put in place of an element. -/
theorem render_outlet (view : String) (children : List PlainNode) :
    (outlet view children).render =
      (outletStart view).toList ++ (renderAll children ++ outletEnd.toList) := by
  rw [outlet, PlainNode.render, outletStart, outletEnd]
  by_cases h : view = ""
  · simp [h, renderStart, Vocabulary.routerOutlet, toString]
  · simp [h, renderStart, PlainAttribute.render, Vocabulary.routerOutlet, toString]

mutual
theorem PlainNode.after_pieces : ∀ node : PlainNode,
    after node.written.pieces = node.migrated.render
  | .text text => by
    rw [PlainNode.written, Written.pieces, PlainNode.migrated, PlainNode.render]
    simp
  | .element name attributes children => by
    have ih := after_piecesAll children
    rw [PlainNode.written, Written.pieces, PlainNode.migrated, view?_startTag]
    cases firstView? attributes with
    | none =>
      simp only [Option.map_none]
      rw [Edit.after_append, after_startTag, Edit.after_append, ih, PlainNode.render,
        isOutlet_startTag]
      simp [stopPieces, WrittenEnd.pieces, after_namePiece, tagEnd]
    | some view =>
      simp only [Option.map_some]
      rw [render_outlet, Edit.after_cons, Edit.after_append, ih]
      simp [outletStop]
  | .selfClosing name attributes => by
    rw [PlainNode.written, Written.pieces, PlainNode.migrated, view?_startTag]
    cases firstView? attributes with
    | none =>
      simp only [Option.map_none]
      rw [after_startTag, PlainNode.render]
      rfl
    | some view =>
      simp only [Option.map_some]
      rw [render_outlet]
      simp [renderAll]
  | .void name attributes => by
    rw [PlainNode.written, Written.pieces, PlainNode.migrated, view?_startTag]
    cases firstView? attributes with
    | none =>
      simp only [Option.map_none]
      rw [after_startTag, PlainNode.render]
      rfl
    | some view =>
      simp only [Option.map_some]
      rw [render_outlet]
      simp [renderAll]

theorem after_piecesAll : ∀ nodes : List PlainNode,
    after (piecesAll (writtenAll nodes)) = renderAll (plainMigrated nodes)
  | [] => by rw [writtenAll, piecesAll, plainMigrated, renderAll, Edit.after_nil]
  | node :: rest => by
    rw [writtenAll, piecesAll, plainMigrated, renderAll, Edit.after_append, node.after_pieces,
      after_piecesAll rest]
end

/-- Migrating the text of a plain template is rendering its migrated tree. -/
theorem migrate_renderAll {nodes : List PlainNode} (h : WellFormedAll nodes) :
    migrate (String.ofList (renderAll nodes)) =
      .ok (String.ofList (renderAll (plainMigrated nodes))) := by
  have htemplate : IsTemplate (writtenAll nodes) := properAll_writtenAll h rfl
  rw [← charsAll_writtenAll, migrate_charsAll htemplate, migratedAll, after_piecesAll]

/-- An outlet whose second outlet attribute is in vain, around a link and a legacy outlet. -/
def nestedPlain : List PlainNode :=
  [.element "div" [⟨"ui-view", some "a"⟩, ⟨"uiSref", some "x"⟩, ⟨"ui-view", some "b"⟩]
    [.text "y", .element "a" [⟨"uiSref", some "s.t"⟩, ⟨"p", none⟩] [.text "z"],
      .selfClosing "ui-view" []]]

theorem migrate_renderAll_nested :
    WellFormedAll nestedPlain ∧
      renderAll nestedPlain = ("<div ui-view=\"a\" uiSref=\"x\" ui-view=\"b\">" ++
        "y<a uiSref=\"s.t\" p>z</a><ui-view/></div>").toList ∧
      renderAll (plainMigrated nestedPlain) = ("<router-outlet [name]=\"a\">" ++
        "y<a [routerLink]=\"['s/t']\" p>z</a><router-outlet/></router-outlet>").toList ∧
      migrate (String.ofList (renderAll nestedPlain)) =
        .ok (String.ofList (renderAll (plainMigrated nestedPlain))) := by
  have h : WellFormedAll nestedPlain := by
    simp only [nestedPlain, WellFormedAll, PlainNode.WellFormed, PlainNode.isText,
      plainStartsWithText, ← List.all_eq_true]
    decide
  exact ⟨h, by decide, by decide, migrate_renderAll h⟩

end RouterShift.Markup
