import RouterShift.Proofs.Markup.Migration
import RouterShift.Proofs.Markup.Onward
import RouterShift.Proofs.Markup.Recovery

/-! What a migration does not touch. The places it writes to are told by the elements of a template
    alone (`Tag.Writes`), without the batch and the order in which it is made. A migration always
    gives a text, and this text is the template cut at those places, with something else in each of
    them and everything between them as it was (`migrate_untouched`). -/

namespace RouterShift.Markup
open Edit (Piece Follows before after edits)

/-- The element carries an outlet attribute. -/
def Tag.HasView (t : Tag) : Prop := ∃ a ∈ t.attributes, a.name = Vocabulary.view

/-- The places that are written to for an element. One with an outlet attribute has its tags
    replaced, and where it has no end tag but takes children, one is put in where it ends. In any
    other element it is the attributes of the vocabulary, and the name if it is that of an outlet. -/
inductive Tag.Writes (t : Tag) : Span → Prop
  | attr (a : Attribute) (hview : ¬ t.HasView) (ha : a ∈ t.attributes)
    (hname : a.name ∈ Vocabulary.attributes) : t.Writes a.span
  | name (hview : ¬ t.HasView) (hname : t.name ∈ Vocabulary.outletTags) : t.Writes t.nameSpan
  | endName (e : EndTag) (hview : ¬ t.HasView) (hname : t.name ∈ Vocabulary.outletTags)
    (he : t.endTag = some e) : t.Writes e.nameSpan
  | startTag (hview : t.HasView) : t.Writes t.startTag
  | endTag (e : EndTag) (hview : t.HasView) (he : t.endTag = some e) : t.Writes e.span
  | ending (hview : t.HasView) (he : t.endTag = none) (hself : t.selfClosing = false)
    (hvoid : t.isVoid = false) : t.Writes ⟨t.span.stop, t.span.stop⟩

section
variable {t : Tag} {a : Attribute} {span : Span}

theorem Tag.view?_eq_none_iff : t.view? = none ↔ ¬ t.HasView := by
  rw [view?, Option.map_eq_none_iff, List.find?_eq_none, HasView]
  simp only [decide_eq_true_eq, not_exists, not_and]

theorem Tag.hasView_of_eq_some {name : String} (h : t.view? = some name) : t.HasView := by
  by_contra hview
  rw [view?_eq_none_iff.2 hview] at h
  cases h

theorem Attribute.exists_mem_translations :
    (∃ r ∈ a.translations, r.range = span) ↔
      (a.name ∈ Vocabulary.attributes ∧ a.name ≠ Vocabulary.view) ∧ a.span = span := by
  rw [← translateAttribute?_isSome, translations]
  by_cases hview : a.name = Vocabulary.view
  · simp [hview, translateAttribute?_view hview]
  · rw [if_neg hview]
    cases translateAttribute? a with
    | none => simp
    | some text => simp

theorem Tag.exists_mem_renamings :
    (∃ r ∈ t.renamings, r.range = span) ↔ t.name ∈ Vocabulary.outletTags ∧
      (t.nameSpan = span ∨ ∃ e, t.endTag = some e ∧ e.nameSpan = span) := by
  rw [renamings]
  by_cases hname : t.name ∈ Vocabulary.outletTags
  · cases t.endTag with
    | none => simp [hname]
    | some e => simp [hname]
  · simp [hname]

theorem exists_mem_hostReplacements (name : String) :
    (∃ r ∈ hostReplacements name t, r.range = span) ↔
      t.startTag = span ∨ (∃ e, t.endTag = some e ∧ e.span = span) ∨
        (t.endTag = none ∧ t.selfClosing = false ∧ t.isVoid = false ∧
          ⟨t.span.stop, t.span.stop⟩ = span) := by
  rw [hostReplacements]
  cases t.endTag with
  | some e => simp
  | none =>
    cases hself : t.selfClosing with
    | true => simp
    | false =>
      cases hvoid : t.isVoid with
      | true => simp
      | false => simp [Replacement.insert]

theorem Tag.exists_mem_inner :
    (∃ r ∈ t.inner, r.range = span) ↔ (∃ r ∈ t.renamings, r.range = span) ∨
      ∃ a ∈ t.attributes, ∃ r ∈ a.translations, r.range = span := by
  simp only [inner_eq, List.mem_append, List.mem_flatMap]
  constructor
  · rintro ⟨r, hr | ⟨a, ha, hr⟩, hrange⟩
    · exact .inl ⟨r, hr, hrange⟩
    · exact .inr ⟨a, ha, r, hr, hrange⟩
  · rintro (⟨r, hr, hrange⟩ | ⟨a, ha, r, hr, hrange⟩)
    · exact ⟨r, .inl hr, hrange⟩
    · exact ⟨r, .inr ⟨a, ha, hr⟩, hrange⟩

/-- What an element asks for is where it is written to. -/
theorem Tag.exists_mem_edits : (∃ r ∈ t.edits, r.range = span) ↔ t.Writes span := by
  rw [edits]
  cases hview : t.view? with
  | none =>
    have hno := view?_eq_none_iff.1 hview
    simp only [exists_mem_inner, exists_mem_renamings, Attribute.exists_mem_translations]
    constructor
    · rintro (⟨hname, rfl | ⟨e, he, rfl⟩⟩ | ⟨a, ha, ⟨hname, -⟩, rfl⟩)
      · exact .name hno hname
      · exact .endName e hno hname he
      · exact .attr a hno ha hname
    · intro h
      cases h with
      | attr a _ ha hname => exact .inr ⟨a, ha, ⟨hname, fun h => hno ⟨a, ha, h⟩⟩, rfl⟩
      | name _ hname => exact .inl ⟨hname, .inl rfl⟩
      | endName e _ hname he => exact .inl ⟨hname, .inr ⟨e, he, rfl⟩⟩
      | startTag h | endTag _ h | ending h => exact absurd h hno
  | some name =>
    have hyes := hasView_of_eq_some hview
    simp only [exists_mem_hostReplacements]
    constructor
    · rintro (rfl | ⟨e, he, rfl⟩ | ⟨he, hself, hvoid, rfl⟩)
      · exact .startTag hyes
      · exact .endTag e hyes he
      · exact .ending hyes he hself hvoid
    · intro h
      cases h with
      | startTag => exact .inl rfl
      | endTag e _ he => exact .inr (.inl ⟨e, he, rfl⟩)
      | ending _ he hself hvoid => exact .inr (.inr ⟨he, hself, hvoid, rfl⟩)
      | attr _ h | name h | endName _ h => exact absurd hyes h

end

theorem IsTemplate.exists_mem_edits {ws : List Written} (h : IsTemplate ws) {span : Span} :
    (∃ r ∈ edits 0 (piecesAll ws), r.range = span) ↔
      ∃ t ∈ tagsAll (nodesAll 0 ws), t.Writes span := by
  simp only [mem_editsAll ws h, List.mem_flatMap, ← Tag.exists_mem_edits]
  constructor
  · rintro ⟨r, ⟨t, ht, hr⟩, hrange⟩
    exact ⟨t, ht, r, hr, hrange⟩
  · rintro ⟨t, ht, r, hr, hrange⟩
    exact ⟨r, ⟨t, ht, hr⟩, hrange⟩

/-- A migration never fails. A text that is no template stays as it is. A template is cut into
    pieces of which those that are replaced are exactly the places written to for its elements, and
    the migrated text has all the others where they were, as they were. -/
theorem migrate_untouched (text : String) :
    ∃ out, migrate text = .ok out ∧
      match parse text with
      | .error _ => out = text
      | .ok nodes => ∃ ps : List Piece, text.toList = before ps ∧ out.toList = after ps ∧
          (edits 0 ps).Pairwise Follows ∧
          ∀ span, (∃ r ∈ edits 0 ps, r.range = span) ↔ ∃ t ∈ tagsAll nodes, t.Writes span := by
  cases hparse : parse text with
  | error e =>
    refine ⟨text, ?_, rfl⟩
    rw [migrate, parseOrEmpty, hparse]
    rfl
  | ok nodes =>
    obtain ⟨ws, htemplate, htext, rfl⟩ := parse_eq_ok_iff.1 hparse
    obtain rfl : text = String.ofList (charsAll ws) := by rw [← htext, String.ofList_toList]
    refine ⟨_, migrate_charsAll htemplate, piecesAll ws, ?_, String.toList_ofList,
      (steadyAll ws htemplate).follows, fun span => htemplate.exists_mem_edits⟩
    rw [String.toList_ofList, before_piecesAll]

end RouterShift.Markup
