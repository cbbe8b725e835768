import RouterShift.Proofs.Markup.Onward
import RouterShift.Proofs.Markup.Plain

/-! Tags once they are migrated. What takes the place of a tag is written as a tag again
    (`WrittenTag.replaced`), and none of the vocabulary is in it. It is a proper tag as long as no
    value that is pasted between double quotes has a double quote in it. -/

namespace RouterShift.Markup
open Text (byteLength StopsBefore stopsBefore_cons isAsciiBlank)
open Edit (Piece after)

/-! ### What is written -/

/-- An attribute as the table of attributes has it. -/
def WrittenAttribute.plain (a : WrittenAttribute) : PlainAttribute :=
  ⟨String.ofList a.name, some (String.ofList a.value)⟩

/-- What takes the place of an attribute; the blank in front of it is there already. -/
def WrittenAttribute.replaced (a : WrittenAttribute) : List TagPart :=
  if a.translated?.isSome then (a.plain.migrated.flatMap PlainAttribute.parts).tail else [.attr a]

def TagPart.replaced : TagPart → List TagPart
  | attr a => a.replaced
  | part => [part]

def outletStartTag (name : String) : WrittenTag :=
  startTag Vocabulary.routerOutlet (if name = "" then [] else [⟨"[name]", some name⟩]) false

/-- The start tag that takes the place of one. -/
def WrittenTag.replaced (t : WrittenTag) : WrittenTag :=
  match t.view? with
  | some name => outletStartTag (String.ofList name)
  | none => ⟨(namePiece t.isOutlet t.name).after, t.parts.flatMap TagPart.replaced, t.selfClosing⟩

/-- The values that a migration pastes between double quotes. -/
def WrittenTag.pasted (t : WrittenTag) : List (List Char) :=
  match t.view? with
  | some name => [name]
  | none => ((t.parts.filterMap TagPart.attribute?).filter (·.translated?.isSome)).map (·.value)

def outletEndTag : WrittenEnd := ⟨Vocabulary.routerOutlet.toList, []⟩

/-- The end tag that takes the place of one. -/
def WrittenEnd.replaced (e : WrittenEnd) (t : WrittenTag) : WrittenEnd :=
  match t.view? with
  | some _ => outletEndTag
  | none => ⟨(namePiece t.isOutlet e.name).after, e.blanks⟩

/-! ### It is what the pieces say -/

theorem WrittenAttribute.plain_translated? (a : WrittenAttribute) :
    a.plain.written.translated? = a.translated? := by
  simp [WrittenAttribute.translated?, WrittenAttribute.plain, PlainAttribute.written,
    WrittenAttribute.value, WrittenValue.text]

theorem WrittenAttribute.chars_replaced (a : WrittenAttribute) :
    partsChars a.replaced = a.piece.after := by
  rw [WrittenAttribute.replaced]
  cases htext : a.translated? with
  | none =>
    rw [Option.isSome_none, if_neg Bool.false_ne_true, WrittenAttribute.piece, htext]
    exact List.append_nil _
  | some text =>
    have hmigrated := attribute_migrated a.plain
    have hplain := partsChars_plain a.plain.migrated
    obtain ⟨parts, hparts⟩ : ∃ parts, a.plain.migrated.flatMap PlainAttribute.parts =
        .blank ' ' :: parts := by
      cases hlist : a.plain.migrated with
      | nil => rw [hlist] at hmigrated; cases hmigrated
      | cons b bs => exact ⟨_, rfl⟩
    rw [Option.isSome_some, if_pos rfl, hparts, List.tail_cons, WrittenAttribute.piece, htext]
    rw [WrittenAttribute.piece, a.plain_translated?, htext, ← hplain, hparts] at hmigrated
    exact (List.cons.inj hmigrated).2.symm

theorem partsChars_replaced : ∀ parts : List TagPart,
    partsChars (parts.flatMap TagPart.replaced) = after (parts.map TagPart.piece)
  | [] => rfl
  | part :: parts => by
    rw [List.flatMap_cons, partsChars_append, partsChars_replaced parts, List.map_cons,
      Edit.after_cons]
    congr 1
    cases part with
    | blank c => rfl
    | slash => rfl
    | attr a => exact a.chars_replaced

theorem chars_outletStartTag (name : String) : (outletStartTag name).chars = (outletStart name).toList := by
  rw [outletStartTag, chars_startTag, outletStart]
  by_cases h : name = ""
  · simp [h, renderStart, tagEnd, Vocabulary.routerOutlet, toString]
  · simp [h, renderStart, tagEnd, PlainAttribute.render, Vocabulary.routerOutlet, toString]

theorem chars_outletEndTag : outletEndTag.chars = outletEnd.toList := by decide

section
variable {t : WrittenTag} {e : WrittenEnd}

theorem WrittenTag.chars_replaced (h : t.view? = none) : t.replaced.chars = after t.pieces := by
  rw [WrittenTag.replaced, h, WrittenTag.chars, partsChars_replaced, WrittenTag.pieces]
  simp

theorem WrittenTag.chars_replaced_outlet {name : List Char} (h : t.view? = some name) :
    t.replaced.chars = (outletStart (String.ofList name)).toList := by
  rw [WrittenTag.replaced, h, chars_outletStartTag]

theorem WrittenEnd.chars_replaced (h : t.view? = none) :
    (e.replaced t).chars = after (e.pieces t.isOutlet) := by
  rw [WrittenEnd.replaced, h, WrittenEnd.chars, WrittenEnd.pieces]
  simp

theorem WrittenEnd.chars_replaced_outlet {name : List Char} (h : t.view? = some name) :
    (e.replaced t).chars = outletEnd.toList := by
  rw [WrittenEnd.replaced, h, chars_outletEndTag]

/-! ### Names -/

theorem WrittenTag.name_replaced (h : t.view? = none) :
    t.replaced.name = (namePiece t.isOutlet t.name).after := by
  rw [WrittenTag.replaced, h]

theorem after_namePiece_true (name : List Char) :
    (namePiece true name).after = Vocabulary.routerOutlet.toList := rfl

theorem after_namePiece_false (name : List Char) : (namePiece false name).after = name := rfl

/-- The end tag of an element still is the end tag of what the element becomes. -/
theorem sameName_replaced (h : sameName (String.ofList e.name) (String.ofList t.name) = true) :
    sameName (String.ofList (e.replaced t).name) (String.ofList t.replaced.name) = true := by
  rw [WrittenEnd.replaced, WrittenTag.replaced]
  cases t.view? with
  | some name => exact (by decide : sameName Vocabulary.routerOutlet Vocabulary.routerOutlet = true)
  | none =>
    simp only
    cases t.isOutlet with
    | true => exact (by decide : sameName Vocabulary.routerOutlet Vocabulary.routerOutlet = true)
    | false => exact h

end

/-! ### Parts that stand together -/

theorem head?_partsChars {close : List Char} {part : TagPart} {parts : List TagPart}
    (h : PartsProper close (part :: parts)) : ∃ c more, partsChars (part :: parts) = c :: more ∧
      match part with
      | .blank _ => isAsciiBlank c = true
      | .slash => c = '/'
      | .attr _ => isAttributeNameChar c = true := by
  obtain ⟨hpart, -⟩ := h
  cases part with
  | blank c => exact ⟨c, partsChars parts, rfl, hpart⟩
  | slash => exact ⟨'/', partsChars parts, rfl, rfl⟩
  | attr a =>
    obtain ⟨c, name, hname⟩ := List.exists_cons_of_ne_nil hpart.nonempty
    refine ⟨c, name ++ a.assigned.elim [] Assignment.chars ++ partsChars parts, ?_,
      hpart.name c (by rw [hname]; exact List.mem_cons_self)⟩
    show a.chars ++ partsChars parts = _
    rw [WrittenAttribute.chars, hname]
    rfl

/-- No equals sign follows the blanks at the start of some parts. -/
theorem head?_dropWhile_parts (selfClosing : Bool) : ∀ {parts : List TagPart},
    PartsProper (tagEnd selfClosing) parts →
      ((partsChars parts ++ tagEnd selfClosing).dropWhile isAsciiBlank).head? ≠ some '='
  | [], _ => by cases selfClosing <;> decide
  | part :: parts, h => by
    obtain ⟨c, more, hmore, hc⟩ := head?_partsChars h
    cases part with
    | blank d =>
      have ih := head?_dropWhile_parts selfClosing h.2
      have hd : isAsciiBlank d = true := h.1
      have hcons : partsChars (.blank d :: parts) = d :: partsChars parts := rfl
      rw [hcons, List.cons_append, List.dropWhile_cons_of_pos hd]
      exact ih
    | slash =>
      obtain rfl := hc
      have hslash : isAsciiBlank '/' = false := rfl
      rw [hmore, List.cons_append, List.dropWhile_cons_of_neg (by rw [hslash]; decide)]
      simp
    | attr a =>
      have hblank := not_isAsciiBlank_of_isAttributeNameChar hc
      rw [hmore, List.cons_append, List.dropWhile_cons_of_neg (by rw [hblank]; decide)]
      rintro ⟨⟩
      cases hc

theorem WrittenAttribute.replaced_eq (a : WrittenAttribute) :
    ∃ b more, a.replaced = .attr b :: more := by
  have hmigrated := attribute_migrated a.plain
  rw [WrittenAttribute.replaced]
  split
  · cases hlist : a.plain.migrated with
    | nil => rw [hlist] at hmigrated; cases hmigrated
    | cons b bs => exact ⟨b.written, bs.flatMap PlainAttribute.parts, rfl⟩
  · exact ⟨a, [], rfl⟩

/-- Parts that are replaced start as they did, or with another attribute than they did. -/
theorem head?_replaced {close : List Char} {part : TagPart} {parts : List TagPart}
    (h : PartsProper close (part :: parts))
    (h' : PartsProper close ((part :: parts).flatMap TagPart.replaced)) :
    ∃ c d more more', partsChars (part :: parts) = c :: more ∧
      partsChars ((part :: parts).flatMap TagPart.replaced) = d :: more' ∧
      match part with
      | .blank _ => c = d ∧ isAsciiBlank d = true
      | .slash => c = '/' ∧ d = '/' ∧ (more ++ close).head? ≠ some '>'
      | .attr _ => isAttributeNameChar c = true ∧ isAttributeNameChar d = true := by
  cases part with
  | blank c => exact ⟨c, c, _, _, rfl, rfl, rfl, h.1⟩
  | slash => exact ⟨'/', '/', _, _, rfl, rfl, rfl, rfl, h.1⟩
  | attr a =>
    obtain ⟨c, more, hmore, hc⟩ := head?_partsChars h
    obtain ⟨b, bs, hb⟩ := a.replaced_eq
    have hcons : (TagPart.attr a :: parts).flatMap TagPart.replaced =
        .attr b :: (bs ++ parts.flatMap TagPart.replaced) := by
      rw [List.flatMap_cons, TagPart.replaced, hb, List.cons_append]
    rw [hcons] at h' ⊢
    obtain ⟨d, more', hmore', hd⟩ := head?_partsChars h'
    exact ⟨c, d, more, more', hmore, hmore', hc, hd⟩

/-- A value without quotes ends where it did. -/
theorem bare_proper_replaced {close text : List Char} {parts : List TagPart}
    (hparts : PartsProper close parts)
    (hparts' : PartsProper close (parts.flatMap TagPart.replaced))
    (h : (WrittenValue.bare text).Proper (partsChars parts ++ close)) :
    (WrittenValue.bare text).Proper (partsChars (parts.flatMap TagPart.replaced) ++ close) := by
  cases parts with
  | nil => exact h
  | cons part parts =>
    obtain ⟨c, d, more, more', hmore, hmore', hcd⟩ := head?_replaced hparts hparts'
    obtain ⟨hend, first, hfirst, hblank, hquotes⟩ := h
    rw [hmore, List.cons_append] at hend hfirst
    have hnil := unquoted_eq_nil hend
    rw [unquoted] at hnil
    cases part with
    | slash =>
      obtain ⟨rfl, -, hslash⟩ := hcd
      have hstops : (isAsciiBlank '/' || '/' = '>' ||
          ('/' = '/' && (more ++ close).head? = some '>')) = false := by
        rw [decide_eq_false hslash]
        rfl
      rw [hstops] at hnil
      cases hnil
    | attr a =>
      obtain ⟨hc, -⟩ := hcd
      have hblank := not_isAsciiBlank_of_isAttributeNameChar hc
      have hclose : c ≠ '>' := by rintro rfl; cases hc
      have hslash : c ≠ '/' := by rintro rfl; cases hc
      simp [hblank, hclose, hslash] at hnil
    | blank b =>
      obtain ⟨rfl, hc⟩ := hcd
      have htext : text ≠ [] := by
        rintro rfl
        rw [List.nil_append] at hfirst
        cases hfirst
        rw [hc] at hblank
        cases hblank
      rw [hmore', List.cons_append, WrittenValue.Proper, unquoted_append (.inl hc),
        ← unquoted_append (.inl hc) text (more ++ close)]
      rw [head?_append_of_ne_nil htext] at hfirst ⊢
      exact ⟨hend, first, hfirst, hblank, hquotes⟩

/-- A part is as proper in front of parts that are replaced. -/
theorem TagPart.proper_replaced {selfClosing : Bool} {part : TagPart} {parts : List TagPart}
    (hparts : PartsProper (tagEnd selfClosing) parts)
    (hparts' : PartsProper (tagEnd selfClosing) (parts.flatMap TagPart.replaced))
    (h : part.Proper (partsChars parts ++ tagEnd selfClosing)) :
    part.Proper (partsChars (parts.flatMap TagPart.replaced) ++ tagEnd selfClosing) := by
  cases part with
  | blank c => exact h
  | slash =>
    cases parts with
    | nil => exact h
    | cons part parts =>
      obtain ⟨c, d, more, more', -, hmore', hcd⟩ := head?_replaced hparts hparts'
      rw [TagPart.Proper, hmore']
      rintro ⟨⟩
      cases part with
      | blank b => cases hcd.2
      | slash => cases hcd.2.1
      | attr a => cases hcd.2
  | attr a =>
    obtain ⟨hne, hname, hassigned, hbare⟩ := h
    refine ⟨hne, hname, fun v hv => ?_, fun hnone => ⟨?_, head?_dropWhile_parts selfClosing hparts'⟩⟩
    · obtain ⟨hbefore, hbehind, hvalue⟩ := hassigned v hv
      refine ⟨hbefore, hbehind, ?_⟩
      cases hv : v.value with
      | quoted quote text => rw [hv] at hvalue; exact hvalue
      | bare text => rw [hv] at hvalue; exact bare_proper_replaced hparts hparts' hvalue
    · have hstops := (hbare hnone).1
      cases parts with
      | nil => exact hstops
      | cons part parts =>
        obtain ⟨c, d, more, more', hmore, hmore', hcd⟩ := head?_replaced hparts hparts'
        rw [hmore] at hstops
        rw [hmore']
        cases part with
        | blank b => exact stopsBefore_cons (isAttributeNameChar_of_isAsciiBlank hcd.2)
        | slash => rw [hcd.2.1]; exact stopsBefore_cons rfl
        | attr a =>
          have := hstops c rfl
          rw [hcd.1] at this
          cases this

/-! ### Attributes of the table -/

theorem quote_notMem_statePath {value : String} (h : '"' ∉ value.toList) :
    '"' ∉ (statePath value).toList := by
  rw [statePath]
  split
  · rw [String.toList_ofList]
    intro hmem
    obtain ⟨c, hc, hquote⟩ := List.mem_map.1 hmem
    split at hquote
    · cases hquote
    · exact h (hquote ▸ hc)
  · exact h

/-- What the table makes of an attribute has a value, and is none of the vocabulary. -/
theorem PlainAttribute.migrated_spec {a : PlainAttribute}
    (hname : a.name ∈ Vocabulary.attributes ∧ a.name ≠ Vocabulary.view)
    (hvalue : '"' ∉ (a.value.getD "").toList) : ∀ b ∈ a.migrated,
      b.WellFormed ∧ b.value.isSome = true ∧ b.name ∉ Vocabulary.attributes := by
  have hnames : ∀ name ∈ ["[routerLink]", "[queryParams]", "routerLinkActive"],
      name.toList ≠ [] ∧ name.toList.all isAttributeNameChar = true ∧
        name ∉ Vocabulary.attributes := by decide
  have hnew : ∀ name ∈ ["[routerLink]", "[queryParams]", "routerLinkActive"], ∀ value : String,
      '"' ∉ value.toList → (PlainAttribute.mk name (some value)).WellFormed ∧
        (some value).isSome = true ∧ name ∉ Vocabulary.attributes := by
    intro name hname value hvalue
    obtain ⟨h1, h2, h3⟩ := hnames name hname
    exact ⟨⟨h1, List.all_eq_true.1 h2, fun v hv => by cases hv; exact hvalue⟩, rfl, h3⟩
  have hexact : exactAttribute.WellFormed ∧ exactAttribute.value.isSome = true ∧
      exactAttribute.name ∉ Vocabulary.attributes := by decide
  intro b hb
  rw [PlainAttribute.migrated] at hb
  simp only [Vocabulary.attributes, List.mem_cons, List.not_mem_nil, or_false] at hname
  obtain ⟨h | h | h | h | h, hview⟩ := hname
  · have hpath := quote_notMem_statePath hvalue
    generalize statePath (a.value.getD "") = path at hb hpath
    have hb : b = ⟨"[routerLink]", some s!"['{path}']"⟩ := by
      simpa [h, Vocabulary.sref] using hb
    subst hb
    refine hnew "[routerLink]" (by decide) _ ?_
    simpa [toString] using hpath
  · have hb : b = ⟨"[queryParams]", some (a.value.getD "")⟩ := by
      simpa [h, Vocabulary.params] using hb
    subst hb
    exact hnew "[queryParams]" (by decide) _ hvalue
  · have hb : b = ⟨"routerLinkActive", some (a.value.getD "")⟩ ∨ b = exactAttribute := by
      simpa [h, Vocabulary.srefActiveEq] using hb
    rcases hb with rfl | rfl
    · exact hnew "routerLinkActive" (by decide) _ hvalue
    · exact hexact
  · by_cases hroot : a.value.getD "" = "/"
    · have hb : b = ⟨"routerLinkActive", some "/"⟩ ∨ b = exactAttribute := by
        simpa [h, Vocabulary.srefActive, hroot] using hb
      rcases hb with rfl | rfl
      · exact hnew "routerLinkActive" (by decide) _ (by decide)
      · exact hexact
    · have hb : b = ⟨"routerLinkActive", some (a.value.getD "")⟩ := by
        simpa [h, Vocabulary.srefActive, hroot] using hb
      subst hb
      exact hnew "routerLinkActive" (by decide) _ hvalue
  · exact absurd h hview

/-- An attribute with a value in quotes may stand in front of anything. -/
theorem PlainAttribute.proper_written {a : PlainAttribute} (ha : a.WellFormed)
    (hsome : a.value.isSome = true) (after : List Char) : a.written.Proper after := by
  refine ⟨ha.nonempty, ha.name, fun v hv => ?_, fun hnone => ?_⟩
  · obtain ⟨value, hvalue, rfl⟩ := Option.map_eq_some_iff.1 hv
    exact ⟨fun c hc => (by cases hc), fun c hc => (by cases hc), .inl rfl, ha.value value hvalue⟩
  · rw [PlainAttribute.written, Option.map_eq_none_iff] at hnone
    rw [hnone] at hsome
    cases hsome

theorem partsProper_written {close : List Char} {parts : List TagPart} (h : PartsProper close parts) :
    ∀ {attributes : List PlainAttribute},
      (∀ a ∈ attributes, a.WellFormed ∧ a.value.isSome = true) →
        PartsProper close (attributes.flatMap PlainAttribute.parts ++ parts)
  | [], _ => h
  | a :: attributes, ha => by
    obtain ⟨hwell, hsome⟩ := ha a List.mem_cons_self
    have ih := partsProper_written h fun b hb => ha b (List.mem_cons_of_mem a hb)
    exact ⟨(rfl : isAsciiBlank ' ' = true), PlainAttribute.proper_written hwell hsome _, ih⟩

/-! ### Tags -/

theorem partsProper_replaced {selfClosing : Bool} : ∀ {parts : List TagPart},
    PartsProper (tagEnd selfClosing) parts →
    (∀ a ∈ parts.filterMap TagPart.attribute?, a.translated?.isSome = true → '"' ∉ a.value) →
      PartsProper (tagEnd selfClosing) (parts.flatMap TagPart.replaced)
  | [], h, _ => h
  | .blank c :: parts, h, hvalues => ⟨h.1, partsProper_replaced h.2 hvalues⟩
  | .slash :: parts, h, hvalues => by
    have ih := partsProper_replaced h.2 hvalues
    exact ⟨TagPart.proper_replaced h.2 ih h.1, ih⟩
  | .attr a :: parts, h, hvalues => by
    have ih := partsProper_replaced h.2 fun b hb => hvalues b (List.mem_cons_of_mem a hb)
    rw [List.flatMap_cons, TagPart.replaced, WrittenAttribute.replaced]
    split
    · next htable =>
      have hvalue : '"' ∉ (a.plain.value.getD "").toList := by
        simpa [WrittenAttribute.plain] using hvalues a List.mem_cons_self htable
      have hspec := PlainAttribute.migrated_spec (translateAttribute?_isSome.1 htable) hvalue
      have hall := @partsProper_written _ _ ih a.plain.migrated fun b hb =>
        ⟨(hspec b hb).1, (hspec b hb).2.1⟩
      -- the blank that the first of them is written with is not there
      cases hlist : a.plain.migrated with
      | nil => rw [hlist] at hall; exact hall
      | cons b bs => rw [hlist] at hall; exact hall.2
    · exact ⟨TagPart.proper_replaced h.2 ih h.1, ih⟩

theorem attributesOf_map : ∀ (pos : Nat) (parts : List TagPart),
    (attributesOf pos parts).map (fun a => (a.name, a.value)) =
      (parts.filterMap TagPart.attribute?).map fun a => (String.ofList a.name, String.ofList a.value)
  | _, [] => rfl
  | pos, .blank c :: parts => attributesOf_map _ parts
  | pos, .slash :: parts => attributesOf_map _ parts
  | pos, .attr a :: parts => by
    have ih := attributesOf_map (pos + byteLength a.chars) parts
    have hcons : (TagPart.attr a :: parts).filterMap TagPart.attribute? =
        a :: parts.filterMap TagPart.attribute? := rfl
    rw [attributesOf, hcons, List.map_cons, List.map_cons, ih, a.name_node, a.value_node]

/-- A tag is quiet by the names in it. -/
theorem WrittenTag.isQuiet_node {t : WrittenTag} {pos : Nat} : (t.node pos).isQuiet = true ↔
    String.ofList t.name ∉ Vocabulary.outletTags ∧ ∀ a ∈ t.parts.filterMap TagPart.attribute?,
      String.ofList a.name ∉ Vocabulary.attributes := by
  have hnames : (attributesOf (pos + 1 + byteLength t.name) t.parts).map (·.name) =
      (t.parts.filterMap TagPart.attribute?).map (String.ofList ·.name) := by
    have := congrArg (List.map Prod.fst)
      (attributesOf_map (pos + 1 + byteLength t.name) t.parts)
    simpa only [List.map_map, Function.comp_def] using this
  have hall : ∀ names : List String, (names.all fun name => decide (name ∉ Vocabulary.attributes)) =
      true ↔ ∀ name ∈ names, name ∉ Vocabulary.attributes := by simp
  have hmap : ∀ attributes : List Attribute,
      attributes.all (fun a => decide (a.name ∉ Vocabulary.attributes)) =
        (attributes.map (·.name)).all fun name => decide (name ∉ Vocabulary.attributes) := by
    intro attributes
    rw [List.all_map]
    rfl
  rw [Tag.isQuiet, Bool.and_eq_true, decide_eq_true_eq, hmap]
  simp only [WrittenTag.node, openTag, hnames, hall, List.forall_mem_map]

theorem outletStartTag_proper {name : String} (h : '"' ∉ name.toList) :
    (outletStartTag name).Proper := by
  refine startTag_proper false (by decide) fun a ha => ?_
  split at ha
  · cases ha
  · obtain rfl := List.mem_singleton.1 ha
    have hname : ∀ c ∈ "[name]".toList, isAttributeNameChar c = true :=
      List.all_eq_true.1 (by decide)
    exact ⟨(by decide : "[name]".toList ≠ []), hname, fun v hv => by cases hv; exact h⟩

section
variable {t : WrittenTag} {e : WrittenEnd}

theorem WrittenTag.proper_replaced (ht : t.Proper) (hpasted : ∀ value ∈ t.pasted, '"' ∉ value) :
    t.replaced.Proper := by
  rw [WrittenTag.pasted] at hpasted
  rw [WrittenTag.replaced]
  cases hview : t.view? with
  | some name =>
    rw [hview] at hpasted
    exact outletStartTag_proper (by simpa using hpasted)
  | none =>
    rw [hview] at hpasted
    have hparts := partsProper_replaced ht.parts fun a ha htable =>
      hpasted a.value (List.mem_map_of_mem (List.mem_filter.2 ⟨ha, htable⟩))
    have hstop : StopsBefore isTagNameChar
        (partsChars (t.parts.flatMap TagPart.replaced) ++ tagEnd t.selfClosing) := by
      have hstop := ht.nameStop
      have hproper := ht.parts
      cases hlist : t.parts with
      | nil => rw [hlist] at hstop; exact hstop
      | cons part parts =>
        rw [hlist] at hstop hparts hproper
        obtain ⟨c, d, more, more', hmore, hmore', hcd⟩ := head?_replaced hproper hparts
        rw [hmore] at hstop
        rw [hmore']
        cases part with
        | blank b => exact stopsBefore_cons (isTagNameChar_of_isAsciiBlank hcd.2)
        | slash => rw [hcd.2.1]; exact stopsBefore_cons rfl
        | attr a =>
          have hc : isTagNameChar c = false := hstop c rfl
          have hname := hcd.1
          simp only [isTagNameChar, isAttributeNameChar] at hc hname
          simp_all
    simp only
    cases hout : t.isOutlet with
    | true =>
      have hname : ∀ c ∈ Vocabulary.routerOutlet.toList, isTagNameChar c = true :=
        List.all_eq_true.1 (by decide)
      exact ⟨⟨'r', _, rfl, rfl⟩, hname, hstop, hparts⟩
    | false => exact ⟨ht.letter, ht.name, hstop, hparts⟩

/-- None of the vocabulary is in what takes the place of an attribute, the outlet attribute apart. -/
theorem WrittenAttribute.notMem_replaced {a b : WrittenAttribute}
    (hvalue : a.translated?.isSome = true → '"' ∉ a.value)
    (hview : String.ofList a.name ≠ Vocabulary.view)
    (hb : b ∈ a.replaced.filterMap TagPart.attribute?) :
    String.ofList b.name ∉ Vocabulary.attributes := by
  obtain ⟨part, hpart, hb⟩ := List.mem_filterMap.1 hb
  rw [WrittenAttribute.replaced] at hpart
  split at hpart
  · next htable =>
    obtain ⟨c, hc, hpart⟩ := List.mem_flatMap.1 (List.mem_of_mem_tail hpart)
    have hvalue' : '"' ∉ (a.plain.value.getD "").toList := by
      simpa [WrittenAttribute.plain] using hvalue htable
    have hspec := PlainAttribute.migrated_spec (translateAttribute?_isSome.1 htable) hvalue' c hc
    simp only [PlainAttribute.parts, List.mem_cons, List.not_mem_nil, or_false] at hpart
    rcases hpart with rfl | rfl
    · cases hb
    · cases hb
      rw [PlainAttribute.written, String.ofList_toList]
      exact hspec.2.2
  · next htable =>
    obtain rfl := List.mem_singleton.1 hpart
    cases hb
    intro hname
    exact htable (translateAttribute?_isSome.2 ⟨hname, hview⟩)

theorem WrittenTag.isQuiet_replaced (hpasted : ∀ value ∈ t.pasted, '"' ∉ value) (pos : Nat) :
    (t.replaced.node pos).isQuiet = true := by
  rw [WrittenTag.isQuiet_node]
  rw [WrittenTag.pasted] at hpasted
  rw [WrittenTag.replaced]
  cases hview : t.view? with
  | some name =>
    simp only [outletStartTag, startTag]
    refine ⟨by decide, fun a ha => ?_⟩
    split at ha
    · cases ha
    · have ha : PlainAttribute.written ⟨"[name]", some (String.ofList name)⟩ = a := by
        simpa [PlainAttribute.parts, TagPart.attribute?] using ha
      rw [← ha, PlainAttribute.written, String.ofList_toList]
      exact (by decide : "[name]" ∉ Vocabulary.attributes)
  | none =>
    rw [hview] at hpasted
    rw [WrittenTag.view?, Option.map_eq_none_iff, List.find?_eq_none] at hview
    refine ⟨?_, fun a ha => ?_⟩
    · rw [WrittenTag.isOutlet]
      by_cases hname : String.ofList t.name ∈ Vocabulary.outletTags
      · rw [decide_eq_true hname, after_namePiece_true]
        exact (by decide : String.ofList Vocabulary.routerOutlet.toList ∉ Vocabulary.outletTags)
      · rw [decide_eq_false hname, after_namePiece_false]
        exact hname
    · obtain ⟨part, hpart, ha⟩ := List.mem_filterMap.1 ha
      obtain ⟨old, hold, hpart⟩ := List.mem_flatMap.1 hpart
      cases old with
      | blank c => obtain rfl := List.mem_singleton.1 hpart; cases ha
      | slash => obtain rfl := List.mem_singleton.1 hpart; cases ha
      | attr b =>
        have hb : b ∈ t.parts.filterMap TagPart.attribute? := List.mem_filterMap.2 ⟨_, hold, rfl⟩
        refine WrittenAttribute.notMem_replaced (fun htable => ?_) (by simpa using hview b hb)
          (List.mem_filterMap.2 ⟨part, hpart, ha⟩)
        exact hpasted b.value (List.mem_map_of_mem (List.mem_filter.2 ⟨hb, htable⟩))

/-! ### What kind of element it is -/

theorem not_special_of_isOutlet (h : t.isOutlet = true) :
    isVoid (String.ofList t.name) = false ∧ isRawText (String.ofList t.name) = false := by
  have hnames : ∀ name ∈ Vocabulary.outletTags, isVoid name = false ∧ isRawText name = false := by
    decide
  exact hnames _ (of_decide_eq_true h)

theorem routerOutlet_not_special : isVoid (String.ofList Vocabulary.routerOutlet.toList) = false ∧
    isRawText (String.ofList Vocabulary.routerOutlet.toList) = false := by decide

/-- An element stays of its kind, unless it becomes an outlet. -/
theorem WrittenTag.kind_replaced (h : t.view? = none) :
    t.replaced.isSingle = t.isSingle ∧ t.replaced.isRaw = t.isRaw := by
  rw [WrittenTag.replaced, h, WrittenTag.isSingle, WrittenTag.isSingle, WrittenTag.isRaw,
    WrittenTag.isRaw]
  simp only
  cases hout : t.isOutlet with
  | true =>
    obtain ⟨hvoid, hraw⟩ := not_special_of_isOutlet hout
    rw [after_namePiece_true, routerOutlet_not_special.1, routerOutlet_not_special.2, hvoid, hraw]
    exact ⟨rfl, rfl⟩
  | false => exact ⟨rfl, rfl⟩

/-- An outlet takes children. -/
theorem WrittenTag.kind_replaced_outlet {name : List Char} (h : t.view? = some name) :
    t.replaced.isSingle = false ∧ t.replaced.isRaw = false := by
  simp only [WrittenTag.replaced, h, WrittenTag.isSingle, WrittenTag.isRaw, outletStartTag, startTag,
    Bool.false_or]
  exact routerOutlet_not_special

theorem WrittenEnd.proper_replaced (he : e.Proper) : (e.replaced t).Proper := by
  rw [WrittenEnd.replaced]
  have hname : ∀ c ∈ Vocabulary.routerOutlet.toList, isEndNameChar c = true :=
    List.all_eq_true.1 (by decide)
  cases t.view? with
  | some name => exact ⟨hname, fun c hc => by cases hc⟩
  | none =>
    cases t.isOutlet with
    | true => exact ⟨hname, he.blanks⟩
    | false => exact ⟨he.name, he.blanks⟩

end

end RouterShift.Markup
