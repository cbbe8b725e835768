import RouterShift.Proofs.Markup.Plain

/-! Reading undoes rendering. A template is given as a tree without offsets: texts, comments,
    elements with bare or quoted attributes, and expansion forms nested in any way. Its rendering is
    a template whose nodes are that tree again: the same names, values, labels and end tags, and at
    the span of each node the rendering of what the node stands for (`parse_renderNodes`). -/

namespace RouterShift.Markup
open Text (byteLength byteLength_append StopsBefore)

/-- The quotes a value may stand in. -/
inductive Quote
  | double
  | single
  deriving DecidableEq

def Quote.char : Quote → Char
  | double => '"'
  | single => '\''

/-- An attribute that is bare, or has a value in quotes. -/
structure TemplateAttribute where
  name : String
  value : Option (Quote × String)
  deriving DecidableEq

mutual
inductive TemplateNode
  | text (text : String)
  | comment (body : String)
  | element (name : String) (attributes : List TemplateAttribute) (children : List TemplateNode)
  | selfClosing (name : String) (attributes : List TemplateAttribute)
  /-- An element that never takes children, without a slash at its end. -/
  | void (name : String) (attributes : List TemplateAttribute)
  | expansion (switchValue kind : String) (cases : List TemplateCase)

inductive TemplateCase
  | mk (label : String) (children : List TemplateNode)
end

/-! ### Rendering -/

def TemplateAttribute.render (a : TemplateAttribute) : List Char :=
  a.name.toList ++ a.value.elim [] fun (quote, text) =>
    '=' :: quote.char :: (text.toList ++ [quote.char])

def renderOpening (name : String) (attributes : List TemplateAttribute) : List Char :=
  '<' :: (name.toList ++ attributes.flatMap fun a => ' ' :: a.render)

mutual
def TemplateNode.render : TemplateNode → List Char
  | .text text => text.toList
  | .comment body => "<!--".toList ++ (body.toList ++ "-->".toList)
  | .element name attributes children =>
    renderOpening name attributes ++
      '>' :: (renderNodes children ++ '<' :: '/' :: (name.toList ++ ['>']))
  | .selfClosing name attributes => renderOpening name attributes ++ ['/', '>']
  | .void name attributes => renderOpening name attributes ++ ['>']
  | .expansion switchValue kind cases =>
    '{' :: (switchValue.toList ++ ',' :: ' ' :: (kind.toList ++ ',' :: (renderCases cases ++ ['}'])))

def renderNodes : List TemplateNode → List Char
  | [] => []
  | node :: rest => node.render ++ renderNodes rest

def TemplateCase.render : TemplateCase → List Char
  | .mk label children => label.toList ++ ' ' :: '{' :: (renderNodes children ++ ['}'])

def renderCases : List TemplateCase → List Char
  | [] => []
  | c :: rest => ' ' :: (c.render ++ renderCases rest)
end

/-! ### Well-formed templates -/

structure TemplateAttribute.WellFormed (a : TemplateAttribute) : Prop where
  nonempty : a.name.toList ≠ []
  name : ∀ c ∈ a.name.toList, isAttributeNameChar c = true
  value : ∀ v ∈ a.value, v.1.char ∉ v.2.toList

/-- The value an expansion form switches on has no blanks around it. -/
structure SwitchWellFormed (switchValue : String) : Prop where
  nonempty : switchValue.toList ≠ []
  chars : ∀ c ∈ switchValue.toList, isHeaderChar c = true
  start : ∀ c ∈ switchValue.toList.head?, Text.isBlank c = false
  stop : ∀ c ∈ switchValue.toList.getLast?, Text.isBlank c = false

structure KindWellFormed (kind : String) : Prop where
  nonempty : kind.toList ≠ []
  word : ∀ c ∈ kind.toList, isWordChar c = true

structure LabelWellFormed (label : String) : Prop where
  nonempty : label.toList ≠ []
  chars : ∀ c ∈ label.toList, isLabelChar c = true

instance (a : TemplateAttribute) : Decidable a.WellFormed :=
  decidable_of_iff (a.name.toList ≠ [] ∧ a.name.toList.all isAttributeNameChar = true ∧
    ∀ v ∈ a.value, v.1.char ∉ v.2.toList)
    ⟨fun ⟨h1, h2, h3⟩ => ⟨h1, List.all_eq_true.1 h2, h3⟩,
      fun ⟨h1, h2, h3⟩ => ⟨h1, List.all_eq_true.2 h2, h3⟩⟩

instance (switchValue : String) : Decidable (SwitchWellFormed switchValue) :=
  decidable_of_iff (switchValue.toList ≠ [] ∧ switchValue.toList.all isHeaderChar = true ∧
    switchValue.toList.head?.all (!Text.isBlank ·) = true ∧
    switchValue.toList.getLast?.all (!Text.isBlank ·) = true) <| by
      simp only [List.all_eq_true, Option.all_eq_true, Bool.not_eq_true']
      exact ⟨fun ⟨h1, h2, h3, h4⟩ => ⟨h1, h2, h3, h4⟩, fun ⟨h1, h2, h3, h4⟩ => ⟨h1, h2, h3, h4⟩⟩

instance (kind : String) : Decidable (KindWellFormed kind) :=
  decidable_of_iff (kind.toList ≠ [] ∧ kind.toList.all isWordChar = true)
    ⟨fun ⟨h1, h2⟩ => ⟨h1, List.all_eq_true.1 h2⟩, fun ⟨h1, h2⟩ => ⟨h1, List.all_eq_true.2 h2⟩⟩

instance (label : String) : Decidable (LabelWellFormed label) :=
  decidable_of_iff (label.toList ≠ [] ∧ label.toList.all isLabelChar = true)
    ⟨fun ⟨h1, h2⟩ => ⟨h1, List.all_eq_true.1 h2⟩, fun ⟨h1, h2⟩ => ⟨h1, List.all_eq_true.2 h2⟩⟩

def TemplateNode.isText : TemplateNode → Bool
  | .text _ => true
  | _ => false

def beginsWithText : List TemplateNode → Bool
  | [] => false
  | node :: _ => node.isText

mutual
/-- Elements with an end tag take children, and only those that never do may go without one. -/
def TemplateNode.WellFormed : TemplateNode → Prop
  | .text text => text.toList ≠ [] ∧ ∀ c ∈ text.toList, isPlain c = true
  | .comment body => ¬ "-->".toList <:+: body.toList
  | .element name attributes children =>
    NameWellFormed name ∧ isVoid name = false ∧ (∀ a ∈ attributes, a.WellFormed) ∧
      WellFormedNodes children
  | .selfClosing name attributes => NameWellFormed name ∧ ∀ a ∈ attributes, a.WellFormed
  | .void name attributes =>
    NameWellFormed name ∧ isVoid name = true ∧ ∀ a ∈ attributes, a.WellFormed
  | .expansion switchValue kind cases =>
    SwitchWellFormed switchValue ∧ KindWellFormed kind ∧ WellFormedCases cases

/-- No two texts stand side by side. -/
def WellFormedNodes : List TemplateNode → Prop
  | [] => True
  | node :: rest => node.WellFormed ∧ (node.isText = true → beginsWithText rest = false) ∧
      WellFormedNodes rest

def WellFormedCases : List TemplateCase → Prop
  | [] => True
  | .mk label children :: rest =>
    (LabelWellFormed label ∧ WellFormedNodes children) ∧ WellFormedCases rest
end

/-! ### Nodes of a template -/

/-- The text stands at the span. -/
def StandsAt (m : String) (span : Span) (text : List Char) : Prop :=
  span.slice? m = some (String.ofList text)

/-- The attribute as it is read: a bare one has the empty value. -/
structure TemplateAttribute.ReadAs (m : String) (a : TemplateAttribute) (b : Attribute) : Prop where
  name : b.name = a.name
  value : b.value = a.value.elim "" Prod.snd
  assigned : b.valueSpan.isSome = a.value.isSome
  span : StandsAt m b.span a.render

/-- The tag of an element as it is read, with or without an end tag. -/
structure TagReadAs (m tagName : String) (written : List TemplateAttribute) (closesItself : Bool)
    (endName : Option String) (tag : Tag) : Prop where
  name : tag.name = tagName
  attributes : List.Forall₂ (TemplateAttribute.ReadAs m) written tag.attributes
  selfClosing : tag.selfClosing = closesItself
  endTag : tag.endTag.map EndTag.name = endName

mutual
/-- The node is what a template node is read as: it has the same structure, and the rendering of
    what it stands for is at its span. -/
def TemplateNode.ReadAs (m : String) : TemplateNode → Node → Prop
  | .text text, node => ∃ span, node = .text span ∧ StandsAt m span text.toList
  | .comment body, node =>
    ∃ span, node = .comment span ∧ StandsAt m span (TemplateNode.comment body).render
  | .element name attributes children, node =>
    ∃ tag nodes, node = .element tag nodes ∧ TagReadAs m name attributes false (some name) tag ∧
      StandsAt m tag.span (TemplateNode.element name attributes children).render ∧
      NodesReadAs m children nodes
  | .selfClosing name attributes, node =>
    ∃ tag, node = .element tag [] ∧ TagReadAs m name attributes true none tag ∧
      StandsAt m tag.span (TemplateNode.selfClosing name attributes).render
  | .void name attributes, node =>
    ∃ tag, node = .element tag [] ∧ TagReadAs m name attributes false none tag ∧
      StandsAt m tag.span (TemplateNode.void name attributes).render
  | .expansion switchValue kind cases, node =>
    ∃ span found, node = .expansion ⟨switchValue, kind⟩ span found ∧
      StandsAt m span (TemplateNode.expansion switchValue kind cases).render ∧
      CasesReadAs m cases found

/-- As many nodes as there are template nodes, and each is what the template node is read as. -/
def NodesReadAs (m : String) : List TemplateNode → List Node → Prop
  | [], nodes => nodes = []
  | t :: ts, nodes => ∃ node rest, nodes = node :: rest ∧ t.ReadAs m node ∧ NodesReadAs m ts rest

def CasesReadAs (m : String) : List TemplateCase → List Case → Prop
  | [], found => found = []
  | .mk label children :: ts, found =>
    ∃ span nodes rest, found = .mk label span nodes :: rest ∧
      StandsAt m span (TemplateCase.mk label children).render ∧
      NodesReadAs m children nodes ∧ CasesReadAs m ts rest
end

/-! ### Templates as they are written -/

def TemplateAttribute.written (a : TemplateAttribute) : WrittenAttribute :=
  ⟨a.name.toList, a.value.map fun (quote, text) => ⟨[], [], .quoted quote.char text.toList⟩⟩

def templateTag (name : String) (attributes : List TemplateAttribute) (selfClosing : Bool) :
    WrittenTag :=
  ⟨name.toList, spaced (attributes.map TemplateAttribute.written), selfClosing⟩

mutual
def TemplateNode.written : TemplateNode → Written
  | .text text => .text text.toList
  | .comment body => .comment ('<' :: '!' :: '-' :: '-' :: (body.toList ++ ['-', '-', '>']))
  | .element name attributes children =>
    .container (templateTag name attributes false) (writtenNodes children) (some ⟨name.toList, []⟩)
  | .selfClosing name attributes => .single (templateTag name attributes true)
  | .void name attributes => .single (templateTag name attributes false)
  | .expansion switchValue kind cases =>
    .form ⟨switchValue.toList, ' ' :: kind.toList⟩ (writtenCases cases) []

def writtenNodes : List TemplateNode → List Written
  | [] => []
  | node :: rest => node.written :: writtenNodes rest

def writtenCases : List TemplateCase → List WrittenCase
  | [] => []
  | .mk label children :: rest =>
    .mk [' '] label.toList [' '] (writtenNodes children) :: writtenCases rest
end

theorem TemplateAttribute.chars_written (a : TemplateAttribute) : a.written.chars = a.render := by
  obtain ⟨name, value⟩ := a
  cases value with
  | none => rfl
  | some v => simp [written, render, WrittenAttribute.chars, Assignment.chars, WrittenValue.chars]

theorem chars_templateTag (name : String) (attributes : List TemplateAttribute)
    (selfClosing : Bool) : (templateTag name attributes selfClosing).chars =
      renderOpening name attributes ++ tagEnd selfClosing := by
  have hparts : partsChars (spaced (attributes.map TemplateAttribute.written)) =
      attributes.flatMap fun a => ' ' :: a.render := by
    induction attributes with
    | nil => rfl
    | cons a attributes ih =>
      rw [List.flatMap_cons, ← ih, ← a.chars_written]
      simp [spaced, partsChars, TagPart.chars]
  simp [templateTag, WrittenTag.chars, renderOpening, hparts]

mutual
theorem TemplateNode.chars_written : ∀ node : TemplateNode, node.written.chars = node.render
  | .text text => by rw [TemplateNode.written, TemplateNode.render, Written.chars]
  | .comment body => by
    rw [TemplateNode.written, TemplateNode.render, Written.chars]
    rfl
  | .element name attributes children => by
    rw [TemplateNode.written, TemplateNode.render, Written.chars, chars_templateTag, charsAll_writtenNodes children]
    simp [tagEnd, stopChars, WrittenEnd.chars]
  | .selfClosing name attributes => by
    rw [TemplateNode.written, TemplateNode.render, Written.chars, chars_templateTag]
    rfl
  | .void name attributes => by
    rw [TemplateNode.written, TemplateNode.render, Written.chars, chars_templateTag]
    rfl
  | .expansion switchValue kind cases => by
    rw [TemplateNode.written, TemplateNode.render, Written.chars, casesChars_writtenCases cases]
    simp [WrittenHeader.chars]

theorem charsAll_writtenNodes : ∀ nodes : List TemplateNode,
    charsAll (writtenNodes nodes) = renderNodes nodes
  | [] => by rw [writtenNodes, renderNodes, charsAll]
  | node :: rest => by
    rw [writtenNodes, renderNodes, charsAll, node.chars_written, charsAll_writtenNodes rest]

theorem casesChars_writtenCases : ∀ cases : List TemplateCase,
    casesChars (writtenCases cases) = renderCases cases
  | [] => by rw [writtenCases, renderCases, casesChars]
  | .mk label children :: rest => by
    rw [writtenCases, renderCases, casesChars, WrittenCase.chars, TemplateCase.render,
      charsAll_writtenNodes children, casesChars_writtenCases rest]
    simp
end

/-! ### They are found again -/

theorem Quote.isQuote (quote : Quote) : quote.char = '"' ∨ quote.char = '\'' := by
  cases quote
  · exact .inl rfl
  · exact .inr rfl

theorem TemplateAttribute.WellFormed.isQuoted {a : TemplateAttribute} (h : a.WellFormed) :
    a.written.IsQuoted := by
  refine ⟨h.nonempty, h.name, fun v hv => ?_⟩
  obtain ⟨⟨quote, text⟩, hvalue, rfl⟩ := Option.map_eq_some_iff.1 hv
  exact ⟨quote.char, text.toList, rfl, quote.isQuote, h.value _ hvalue⟩

theorem templateTag_proper {name : String} {attributes : List TemplateAttribute}
    (selfClosing : Bool) (hname : NameWellFormed name) (h : ∀ a ∈ attributes, a.WellFormed) :
    (templateTag name attributes selfClosing).Proper := by
  refine spacedTag_proper selfClosing hname.letter hname.chars fun a ha => ?_
  obtain ⟨b, hb, rfl⟩ := List.mem_map.1 ha
  exact (h b hb).isQuoted

/-- A comment ends with the first end mark behind its start, also when its text ends with dashes. -/
theorem endsFirst_comment {body : List Char} (h : ¬ ['-', '-', '>'] <:+: body) :
    EndsFirst ['-', '-', '>'] body := by
  refine Text.cutFirst?_self_iff.2 fun a b hbody hb hstart => ?_
  match b, hb with
  | [c], _ => simp [List.cons_prefix_cons] at hstart
  | [c, d], _ => simp [List.cons_prefix_cons] at hstart
  | c :: d :: e :: b, _ =>
    simp only [List.cons_append, List.cons_prefix_cons] at hstart
    obtain ⟨rfl, rfl, rfl, -⟩ := hstart
    exact h ⟨a, b, by rw [hbody]; simp⟩

theorem isHeaderChar_of_isWordChar {c : Char} (h : isWordChar c = true) :
    isHeaderChar c = true := by
  by_contra hc
  have hc' : c = ',' ∨ c = '{' ∨ c = '}' ∨ c = '<' := by
    simp [isHeaderChar] at hc
    tauto
  rcases hc' with rfl | rfl | rfl | rfl <;> cases h

theorem not_isBlank_of_isWordChar {c : Char} (h : isWordChar c = true) : Text.isBlank c = false := by
  have hc : 48 ≤ c.toNat ∧ c.toNat ≤ 122 := by
    simp only [isWordChar, isLetter, Bool.or_eq_true, Bool.and_eq_true, decide_eq_true_eq,
      beq_iff_eq] at h
    rcases h with (((h | h) | h) | rfl)
    all_goals first
      | exact ⟨Nat.le_trans (by decide) (Char.le_def.1 h.1), Nat.le_trans (Char.le_def.1 h.2) (by decide)⟩
      | decide
  simp [Text.isBlank]
  omega

theorem header_proper {switchValue kind : String} (hswitch : SwitchWellFormed switchValue)
    (hkind : KindWellFormed kind) :
    WrittenHeader.Proper ⟨switchValue.toList, ' ' :: kind.toList⟩ ∧
      WrittenHeader.node ⟨switchValue.toList, ' ' :: kind.toList⟩ = ⟨switchValue, kind⟩ := by
  have hstop : StopsBefore Text.isBlank switchValue.toList.reverse := by
    rw [StopsBefore, List.head?_reverse]
    exact hswitch.stop
  have hnone : ∀ c ∈ ([] : List Char), Text.isBlank c = true := by simp
  have hspace : ∀ c ∈ [' '], Text.isBlank c = true := List.forall_mem_singleton.2 rfl
  have htrim : Text.trim Text.isBlank switchValue.toList = switchValue.toList :=
    Text.trim_append hnone hswitch.start hstop
  have hword (cs : List Char) (hcs : ∀ c ∈ cs, isWordChar c = true) :
      StopsBefore Text.isBlank cs :=
    fun c hc => not_isBlank_of_isWordChar (hcs c (List.mem_of_mem_head? hc))
  have htrim' : Text.trim Text.isBlank (' ' :: kind.toList) = kind.toList :=
    Text.trim_append hspace (hword _ hkind.word)
      (hword _ fun c hc => hkind.word c (List.mem_reverse.1 hc))
  constructor
  · refine ⟨hswitch.chars, by rw [htrim]; exact hswitch.nonempty, ?_, by rw [htrim']; exact hkind.nonempty,
      by rw [htrim']; exact List.all_eq_true.2 hkind.word⟩
    intro c hc
    rcases List.mem_cons.1 hc with rfl | hc
    · rfl
    · exact isHeaderChar_of_isWordChar (hkind.word c hc)
  · rw [WrittenHeader.node, htrim, htrim', String.ofList_toList, String.ofList_toList]

theorem TemplateNode.isText_written (node : TemplateNode) : node.written.isText = node.isText := by
  cases node <;> rfl

theorem startsWithText_writtenNodes (nodes : List TemplateNode) :
    startsWithText (writtenNodes nodes) = beginsWithText nodes := by
  cases nodes with
  | nil => rfl
  | cons node rest => exact node.isText_written

mutual
theorem TemplateNode.proper_written : ∀ {node : TemplateNode} {opened : List String}
    {inCase : Bool} {pos : Nat} {after : List Char}, node.WellFormed →
      node.written.Proper opened inCase pos after
  | .text text, _, _, _, _, h => by
    rw [TemplateNode.WellFormed] at h
    rw [TemplateNode.written, Written.Proper]
    exact ⟨h.1, textRun_of_isPlain h.2⟩
  | .comment body, _, _, _, _, h => by
    rw [TemplateNode.WellFormed] at h
    rw [TemplateNode.written, Written.Proper]
    exact .comment body.toList (endsFirst_comment h)
  | .element name attributes children, _, _, _, _, h => by
    rw [TemplateNode.WellFormed] at h
    obtain ⟨hname, hvoid, hattrs, hchildren⟩ := h
    rw [TemplateNode.written, Written.Proper]
    refine ⟨templateTag_proper false hname hattrs, ?_, ?_, ?_, ⟨?_, fun c hc => (by cases hc)⟩, ?_⟩
    · simpa [WrittenTag.isSingle, templateTag] using hvoid
    · simpa [WrittenTag.isRaw, templateTag] using hname.notRaw
    · exact properAll_writtenNodes hchildren rfl
    · intro c hc
      have hchar := hname.chars c hc
      simp only [isTagNameChar, Bool.and_eq_true] at hchar
      rw [isEndNameChar, Bool.and_eq_true]
      exact hchar.1
    · simp [templateTag, sameName, Text.sameName]
  | .selfClosing name attributes, _, _, _, _, h => by
    rw [TemplateNode.WellFormed] at h
    rw [TemplateNode.written, Written.Proper]
    exact ⟨templateTag_proper true h.1 h.2, rfl⟩
  | .void name attributes, _, _, _, _, h => by
    rw [TemplateNode.WellFormed] at h
    rw [TemplateNode.written, Written.Proper]
    refine ⟨templateTag_proper false h.1 h.2.2, ?_⟩
    simpa [WrittenTag.isSingle, templateTag] using h.2.1
  | .expansion switchValue kind cases, _, _, _, _, h => by
    rw [TemplateNode.WellFormed] at h
    obtain ⟨hswitch, hkind, hcases⟩ := h
    rw [TemplateNode.written, Written.Proper]
    exact ⟨(header_proper hswitch hkind).1, casesProper_writtenCases hcases,
      fun c hc => (by cases hc)⟩

theorem properAll_writtenNodes : ∀ {nodes : List TemplateNode} {opened : List String}
    {inCase : Bool} {pos : Nat} {after : List Char}, WellFormedNodes nodes →
      (stopOf inCase after).isSome = true → ProperAll opened inCase pos after (writtenNodes nodes)
  | [], _, _, _, _, _, hstop => by
    rw [writtenNodes, ProperAll]
    exact hstop
  | node :: rest, _, _, _, _, h, hstop => by
    rw [WellFormedNodes] at h
    rw [writtenNodes, ProperAll, TemplateNode.isText_written, startsWithText_writtenNodes]
    exact ⟨TemplateNode.proper_written h.1, h.2.1, properAll_writtenNodes h.2.2 hstop⟩

theorem casesProper_writtenCases : ∀ {cases : List TemplateCase} {opened : List String}
    {pos : Nat} {after : List Char}, WellFormedCases cases →
      CasesProper opened pos after (writtenCases cases)
  | [], _, _, _, _ => by
    rw [writtenCases, CasesProper]
    trivial
  | .mk label children :: rest, _, _, _, h => by
    rw [WellFormedCases] at h
    obtain ⟨⟨hlabel, hchildren⟩, hrest⟩ := h
    rw [writtenCases, CasesProper, WrittenCase.Proper]
    exact ⟨⟨List.forall_mem_singleton.2 rfl, hlabel.nonempty, hlabel.chars,
      List.forall_mem_singleton.2 rfl,
      properAll_writtenNodes hchildren rfl⟩, casesProper_writtenCases hrest⟩
end

/-! ### What they are read as -/

section
variable {m : String}

theorem standsAt_part {a p b : List Char} (h : m.toList = a ++ (p ++ b)) :
    StandsAt m ⟨byteLength a, byteLength a + byteLength p⟩ p := slice?_part h

theorem TemplateAttribute.readAs_written (a : TemplateAttribute) {front back : List Char}
    (h : m.toList = front ++ (a.render ++ back)) :
    a.ReadAs m (a.written.node (byteLength front)) := by
  have hspan := a.written.span_node (byteLength front)
  rw [a.chars_written] at hspan
  have hstands : StandsAt m (a.written.node (byteLength front)).span a.render := by
    rw [hspan]
    exact standsAt_part h
  obtain ⟨name, value⟩ := a
  cases value with
  | none => exact ⟨String.ofList_toList, rfl, rfl, hstands⟩
  | some v => exact ⟨String.ofList_toList, String.ofList_toList, rfl, hstands⟩

theorem attributesOf_readAs : ∀ (attributes : List TemplateAttribute) {front back : List Char},
    m.toList = front ++ ((attributes.flatMap fun a => ' ' :: a.render) ++ back) →
      List.Forall₂ (TemplateAttribute.ReadAs m) attributes
        (attributesOf (byteLength front) (spaced (attributes.map TemplateAttribute.written)))
  | [], _, _, _ => .nil
  | a :: attributes, front, back, h => by
    rw [List.flatMap_cons] at h
    have hhead : m.toList = (front ++ [' ']) ++
        (a.render ++ ((attributes.flatMap fun a => ' ' :: a.render) ++ back)) := by
      rw [h]
      simp
    have htail : m.toList = (front ++ ' ' :: a.render) ++
        ((attributes.flatMap fun a => ' ' :: a.render) ++ back) := by
      rw [h]
      simp
    have hcons : attributesOf (byteLength front)
        (spaced ((a :: attributes).map TemplateAttribute.written)) =
          a.written.node (byteLength (front ++ [' '])) ::
            attributesOf (byteLength (front ++ ' ' :: a.render))
              (spaced (attributes.map TemplateAttribute.written)) := by
      have hbehind : byteLength (front ++ ' ' :: a.render) =
          byteLength front + byteLength [' '] + byteLength a.written.chars := by
        rw [a.chars_written, ← byteLength_append, ← byteLength_append, List.append_assoc]
        rfl
      rw [hbehind, byteLength_append]
      rfl
    rw [hcons]
    exact .cons (a.readAs_written hhead) (attributesOf_readAs attributes htail)

/-- The tag of an element is read as it is written, whatever ends the element. -/
theorem templateTag_readAs (name : String) (attributes : List TemplateAttribute)
    (selfClosing : Bool) {front back : List Char}
    (h : m.toList = front ++ (renderOpening name attributes ++ back)) (span : Span)
    (endTag : Option EndTag) {endName : Option String} (hend : endTag.map EndTag.name = endName) :
    TagReadAs m name attributes selfClosing endName
      { (templateTag name attributes selfClosing).node (byteLength front) with
        span := span, endTag := endTag } := by
  have hattrs : m.toList = (front ++ '<' :: name.toList) ++
      ((attributes.flatMap fun a => ' ' :: a.render) ++ back) := by
    rw [h, renderOpening]
    simp
  have hpos : byteLength front + 1 + byteLength name.toList =
      byteLength (front ++ '<' :: name.toList) := by
    rw [byteLength_append, byteLength, Nat.add_assoc]
    rfl
  refine ⟨String.ofList_toList, ?_, rfl, hend⟩
  have hread := attributesOf_readAs attributes hattrs
  rw [← hpos] at hread
  exact hread

mutual
theorem TemplateNode.readAs_written : ∀ {node : TemplateNode} {front back : List Char},
    node.WellFormed → m.toList = front ++ (node.render ++ back) →
      node.ReadAs m (node.written.node (byteLength front))
  | .text text, front, back, _, hm => by
    rw [TemplateNode.render] at hm
    rw [TemplateNode.written, Written.node, TemplateNode.ReadAs]
    exact ⟨_, rfl, standsAt_part hm⟩
  | .comment body, front, back, _, hm => by
    have hchars := (TemplateNode.comment body).chars_written
    rw [TemplateNode.written, Written.chars] at hchars
    rw [TemplateNode.written, Written.node, TemplateNode.ReadAs, hchars]
    exact ⟨_, rfl, standsAt_part hm⟩
  | .element name attributes children, front, back, h, hm => by
    rw [TemplateNode.WellFormed] at h
    have hspan := Written.span_node (byteLength front) (TemplateNode.element name attributes children).written
    rw [TemplateNode.chars_written] at hspan
    have hopening : m.toList = front ++ (renderOpening name attributes ++
        ('>' :: (renderNodes children ++ '<' :: '/' :: (name.toList ++ ['>'])) ++ back)) := by
      rw [hm, TemplateNode.render, List.append_assoc]
    have hbody : m.toList = (front ++ (renderOpening name attributes ++ ['>'])) ++
        (renderNodes children ++ ('<' :: '/' :: (name.toList ++ ['>']) ++ back)) := by
      rw [hopening]
      simp
    have hchildren := nodesReadAs_writtenNodes h.2.2.2 hbody
    have hstart : byteLength front + byteLength (templateTag name attributes false).chars =
        byteLength (front ++ (renderOpening name attributes ++ ['>'])) := by
      rw [chars_templateTag, ← byteLength_append]
      rfl
    rw [TemplateNode.written, Written.node] at hspan ⊢
    rw [TemplateNode.ReadAs]
    refine ⟨_, _, rfl, ?_, ?_, ?_⟩
    · exact templateTag_readAs name attributes false hopening _ (some _)
        (congrArg some String.ofList_toList)
    · rw [Node.span] at hspan
      rw [hspan]
      exact standsAt_part hm
    · rw [hstart]
      exact hchildren
  | .selfClosing name attributes, front, back, _, hm => by
    have hopening : m.toList = front ++ (renderOpening name attributes ++ (['/', '>'] ++ back)) := by
      rw [hm, TemplateNode.render, List.append_assoc]
    rw [TemplateNode.written, Written.node, TemplateNode.ReadAs]
    refine ⟨_, rfl, ?_, ?_⟩
    · exact templateTag_readAs name attributes true hopening _ none rfl
    · rw [WrittenTag.node, openTag, chars_templateTag]
      exact standsAt_part hm
  | .void name attributes, front, back, _, hm => by
    have hopening : m.toList = front ++ (renderOpening name attributes ++ (['>'] ++ back)) := by
      rw [hm, TemplateNode.render, List.append_assoc]
    rw [TemplateNode.written, Written.node, TemplateNode.ReadAs]
    refine ⟨_, rfl, ?_, ?_⟩
    · exact templateTag_readAs name attributes false hopening _ none rfl
    · rw [WrittenTag.node, openTag, chars_templateTag]
      exact standsAt_part hm
  | .expansion switchValue kind cases, front, back, h, hm => by
    rw [TemplateNode.WellFormed] at h
    obtain ⟨hswitch, hkind, hcases⟩ := h
    have hchars := (TemplateNode.expansion switchValue kind cases).chars_written
    rw [TemplateNode.written] at hchars
    have hinside : m.toList = (front ++ '{' :: (WrittenHeader.chars
        ⟨switchValue.toList, ' ' :: kind.toList⟩)) ++ (renderCases cases ++ ('}' :: back)) := by
      rw [hm, TemplateNode.render]
      simp [WrittenHeader.chars]
    have hfound := casesReadAs_writtenCases hcases hinside
    have hstart : byteLength front + 1 +
        byteLength (WrittenHeader.chars ⟨switchValue.toList, ' ' :: kind.toList⟩) =
          byteLength (front ++ '{' :: (WrittenHeader.chars
            ⟨switchValue.toList, ' ' :: kind.toList⟩)) := by
      rw [byteLength_append, byteLength, Nat.add_assoc]
      rfl
    rw [TemplateNode.written, Written.node, TemplateNode.ReadAs, (header_proper hswitch hkind).2, hchars, hstart]
    exact ⟨_, _, rfl, standsAt_part hm, hfound⟩

theorem nodesReadAs_writtenNodes : ∀ {nodes : List TemplateNode} {front back : List Char},
    WellFormedNodes nodes → m.toList = front ++ (renderNodes nodes ++ back) →
      NodesReadAs m nodes (nodesAll (byteLength front) (writtenNodes nodes))
  | [], _, _, _, _ => by rw [writtenNodes, nodesAll, NodesReadAs]
  | node :: rest, front, back, h, hm => by
    rw [WellFormedNodes] at h
    rw [renderNodes, List.append_assoc] at hm
    have hrest : m.toList = (front ++ node.render) ++ (renderNodes rest ++ back) := by
      rw [hm, List.append_assoc]
    have hfound := nodesReadAs_writtenNodes h.2.2 hrest
    rw [byteLength_append, ← node.chars_written] at hfound
    rw [writtenNodes, nodesAll, NodesReadAs]
    exact ⟨_, _, rfl, TemplateNode.readAs_written h.1 hm, hfound⟩

theorem casesReadAs_writtenCases : ∀ {cases : List TemplateCase} {front back : List Char},
    WellFormedCases cases → m.toList = front ++ (renderCases cases ++ back) →
      CasesReadAs m cases (casesNodes (byteLength front) (writtenCases cases))
  | [], _, _, _, _ => by rw [writtenCases, casesNodes, CasesReadAs]
  | .mk label children :: rest, front, back, h, hm => by
    rw [WellFormedCases] at h
    obtain ⟨⟨-, hchildren⟩, hrest⟩ := h
    have hchars : (WrittenCase.mk [' '] label.toList [' '] (writtenNodes children)).chars =
        ' ' :: (TemplateCase.mk label children).render := by
      rw [WrittenCase.chars, TemplateCase.render, charsAll_writtenNodes]
      simp
    have hcase : m.toList = (front ++ [' ']) ++
        ((TemplateCase.mk label children).render ++ (renderCases rest ++ back)) := by
      rw [hm, renderCases]
      simp
    have hbody : m.toList = (front ++ ' ' :: (label.toList ++ [' ', '{'])) ++
        (renderNodes children ++ ('}' :: (renderCases rest ++ back))) := by
      rw [hcase, TemplateCase.render]
      simp
    have htail : m.toList = (front ++ ' ' :: (TemplateCase.mk label children).render) ++
        (renderCases rest ++ back) := by
      rw [hcase]
      simp
    have hnodes := nodesReadAs_writtenNodes hchildren hbody
    have hfound := casesReadAs_writtenCases hrest htail
    have hstart : byteLength front + byteLength [' '] + byteLength label.toList + byteLength [' '] + 1 =
        byteLength (front ++ ' ' :: (label.toList ++ [' ', '{'])) := by
      simp [byteLength, byteLength_append, Char.utf8Size]
      omega
    have hspan : (⟨byteLength front + byteLength [' '],
        byteLength front + byteLength (' ' :: (TemplateCase.mk label children).render)⟩ : Span) =
          ⟨byteLength (front ++ [' ']), byteLength (front ++ [' ']) +
            byteLength (TemplateCase.mk label children).render⟩ := by
      rw [byteLength_append, byteLength, Nat.add_assoc]
      rfl
    rw [byteLength_append] at hfound
    rw [writtenCases, casesNodes, WrittenCase.node, CasesReadAs, hchars, hstart, hspan,
      String.ofList_toList]
    exact ⟨_, _, _, rfl, standsAt_part hcase, hnodes, hfound⟩
end

end

/-- A rendered template is read as the template it was rendered from. -/
theorem parse_renderNodes {nodes : List TemplateNode} (h : WellFormedNodes nodes) :
    ∃ found, parse (String.ofList (renderNodes nodes)) = .ok found ∧
      NodesReadAs (String.ofList (renderNodes nodes)) nodes found := by
  have htemplate : IsTemplate (writtenNodes nodes) := properAll_writtenNodes h rfl
  refine ⟨nodesAll 0 (writtenNodes nodes), ?_, ?_⟩
  · rw [← charsAll_writtenNodes]
    exact htemplate.parse
  · have hm : (String.ofList (renderNodes nodes)).toList = [] ++ (renderNodes nodes ++ []) := by
      simp
    exact nodesReadAs_writtenNodes h hm

/-- A form within an element within a form, values with the other quote and a brace in them, and a
    comment that ends with a dash. -/
def nestedTemplate : List TemplateNode :=
  [.comment " \x7d-", .expansion "n + 1" "plural"
    [.mk "=0" [.element "P" [⟨"a", some (.single, "\"\x7d")⟩, ⟨"\x7bb", none⟩]
        [.text "x", .expansion "m" "select" [.mk "<" []], .void "br" []]],
      .mk "other" [.selfClosing "i" [⟨"c", some (.double, "")⟩]]],
    .text "y"]

theorem parse_renderNodes_nested :
    WellFormedNodes nestedTemplate ∧
      renderNodes nestedTemplate = ("<!-- \x7d--->\x7bn + 1, plural, =0 \x7b<P a='\"\x7d' \x7bb>x" ++
        "\x7bm, select, < \x7b\x7d\x7d<br></P>\x7d other \x7b<i c=\"\"/>\x7d\x7dy").toList ∧
      ∃ found, parse (String.ofList (renderNodes nestedTemplate)) = .ok found ∧
        NodesReadAs (String.ofList (renderNodes nestedTemplate)) nestedTemplate found := by
  have h : WellFormedNodes nestedTemplate := by
    simp only [nestedTemplate, WellFormedNodes, WellFormedCases, TemplateNode.WellFormed,
      TemplateNode.isText, beginsWithText, ← List.all_eq_true]
    decide
  exact ⟨h, by decide, parse_renderNodes h⟩

end RouterShift.Markup
