import RouterShift.Proofs.Markup.Migration
import RouterShift.Proofs.Markup.Onward
import RouterShift.TypeScript.Grammar
import RouterShift.Workspace.Plan

/-! Templates that are left out of a migration. Whether a template is one of its targets is decided
    by looking for the words of the vocabulary anywhere in its text. The migration looks at names of
    elements and attributes instead, which the reader has found; but each of them stands in the text
    (`parse_lossless`), so a text without the words has nothing to replace, however it is read. -/

namespace RouterShift

/-- What stands at a span occurs in the text. -/
theorem Span.infix_of_slice? {m part : String} {s : Span} (h : s.slice? m = some part) :
    part.toList <:+: m.toList := by
  rw [slice?, Option.map_eq_some_iff] at h
  obtain ⟨cs, hcs, rfl⟩ := h
  obtain ⟨front, back, hm, -⟩ := Text.slice?_eq_some.1 hcs
  exact ⟨front, back, by rw [String.toList_ofList, hm]⟩

namespace Vocabulary

theorem isMentionedIn_eq_false {text : String} : isMentionedIn text = false ↔
    ∀ word ∈ attributes ++ outletTags, ¬ word.toList <:+: text.toList := by
  simp only [isMentionedIn, List.any_eq_false, Text.mentions_iff]

end Vocabulary

/-! ### Names in a template -/

namespace Markup

/-- The names that a migration looks at stand in the text. -/
structure Tag.NamedIn (m : String) (t : Tag) : Prop where
  name : t.name.toList <:+: m.toList
  attributes : ∀ a ∈ t.attributes, a.name.toList <:+: m.toList

theorem Tag.Lossless.namedIn {m : String} {t : Tag} (h : t.Lossless m) : t.NamedIn m :=
  ⟨Span.infix_of_slice? h.name, fun a ha => Span.infix_of_slice? (h.attributes a ha).name⟩

mutual
theorem Node.Lossless.namedIn {m : String} : ∀ {node : Node}, node.Lossless m →
    ∀ t ∈ node.tags, t.NamedIn m
  | .text _, _, t, ht => by rw [Node.tags] at ht; cases ht
  | .comment _, _, t, ht => by rw [Node.tags] at ht; cases ht
  | .element tag children, h, t, ht => by
    rw [Node.Lossless] at h
    rw [Node.tags] at ht
    rcases List.mem_cons.1 ht with rfl | ht
    · exact h.1.namedIn
    · exact namedIn_of_losslessAll h.2.2.2.2 t ht
  | .expansion header span cases, h, t, ht => by
    rw [Node.Lossless] at h
    rw [Node.tags] at ht
    exact namedIn_of_losslessCases h.2.2 t ht

theorem namedIn_of_losslessAll {m : String} : ∀ {nodes : List Node}, LosslessAll m nodes →
    ∀ t ∈ tagsAll nodes, t.NamedIn m
  | [], _, t, ht => by rw [tagsAll] at ht; cases ht
  | node :: rest, h, t, ht => by
    rw [LosslessAll] at h
    rw [tagsAll] at ht
    rcases List.mem_append.1 ht with ht | ht
    · exact h.1.namedIn t ht
    · exact namedIn_of_losslessAll h.2 t ht

theorem namedIn_of_losslessCases {m : String} : ∀ {cases : List Case}, LosslessCases m cases →
    ∀ t ∈ tagsCases cases, t.NamedIn m
  | [], _, t, ht => by rw [tagsCases] at ht; cases ht
  | .mk _ _ children :: rest, h, t, ht => by
    rw [LosslessCases] at h
    obtain ⟨⟨_, _, -, -, -, hchildren⟩, hrest⟩ := h
    rw [tagsCases] at ht
    rcases List.mem_append.1 ht with ht | ht
    · exact namedIn_of_losslessAll hchildren t ht
    · exact namedIn_of_losslessCases hrest t ht
end

variable {text : String}

theorem Tag.NamedIn.isQuiet {t : Tag} (h : t.NamedIn text)
    (hwords : Vocabulary.isMentionedIn text = false) : t.isQuiet = true := by
  rw [Vocabulary.isMentionedIn_eq_false] at hwords
  rw [Tag.isQuiet, Bool.and_eq_true, decide_eq_true_eq, List.all_eq_true]
  refine ⟨fun hname => ?_, fun a ha => decide_eq_true fun hname => ?_⟩
  · exact hwords t.name (List.mem_append_right _ hname) h.name
  · exact hwords a.name (List.mem_append_left _ hname) (h.attributes a ha)

/-- Without the words of the vocabulary there is nothing to replace. -/
theorem quiet_parseOrEmpty (h : Vocabulary.isMentionedIn text = false) : Quiet (parseOrEmpty text) := by
  rw [parseOrEmpty]
  split
  · next nodes hread =>
    exact fun t ht => (namedIn_of_losslessAll (parse_lossless hread).2.2 t ht).isQuiet h
  · exact quiet_nil

theorem migrate_of_quiet (h : Quiet (parseOrEmpty text)) : migrate text = .ok text := by
  rw [migrate, migrateTree, h.replacements_eq_nil]

end Markup

/-! ### Templates of components -/

namespace Workspace
open TypeScript (SourceFile)

/-- The template of a component as a target, whatever is in it. -/
def anyTarget? (t : Tree) (c : TypeScript.Component) : Option Target := do
  let template ← c.template
  let text ← match template with
    | .inline literal => some literal.value
    | .external _ path => t.read path
  return ⟨c.className, template.location, text⟩

theorem target?_eq_filter (t : Tree) (c : TypeScript.Component) :
    target? t c = (anyTarget? t c).filter fun target => Vocabulary.isMentionedIn target.text := by
  rw [target?, anyTarget?]
  cases c.template with
  | none => rfl
  | some template =>
    cases template with
    | inline literal => rfl
    | external url path =>
      simp only [Option.bind_eq_bind, Option.bind_some]
      cases t.read path with
      | none => rfl
      | some text => rfl

/-- What is left out is left out for want of the words. -/
theorem isMentionedIn_of_target?_eq_none {t : Tree} {c : TypeScript.Component} {target : Target}
    (hany : anyTarget? t c = some target) (h : target? t c = none) :
    Vocabulary.isMentionedIn target.text = false := by
  rw [target?_eq_filter, hany, Option.filter_eq_none_iff] at h
  exact Bool.eq_false_iff.2 (h target rfl)

/-- A template that does not mention the vocabulary has nothing to replace, and so a component whose
    template is left out loses nothing: an external one would lead to no change, and an inline one
    would be given the text that it has. -/
theorem unmentioned_unchanged [TypeScript.Reader] :
    (∀ text, Vocabulary.isMentionedIn text = false →
      Markup.replacements (Markup.parseOrEmpty text) = [] ∧ Markup.migrate text = .ok text) ∧
    ∀ t c target, anyTarget? t c = some target → target? t c = none →
      Markup.replacements (Markup.parseOrEmpty target.text) = [] ∧
      Markup.migrate target.text = .ok target.text ∧
      ∀ path file changes seen, migrateTarget path (file, changes, seen) target =
        match target.location with
        | .inline => (spliceTarget path file target target.text).map (·, changes, seen)
        | .external _ => .ok (file, changes, seen) := by
  have hunmentioned (text : String) (h : Vocabulary.isMentionedIn text = false) :
      Markup.replacements (Markup.parseOrEmpty text) = [] ∧ Markup.migrate text = .ok text :=
    ⟨(Markup.quiet_parseOrEmpty h).replacements_eq_nil,
      Markup.migrate_of_quiet (Markup.quiet_parseOrEmpty h)⟩
  refine ⟨hunmentioned, fun t c target hany hnone => ?_⟩
  obtain ⟨hreplacements, hmigrate⟩ :=
    hunmentioned target.text (isMentionedIn_of_target?_eq_none hany hnone)
  refine ⟨hreplacements, hmigrate, fun path file changes seen => ?_⟩
  rw [migrateTarget, hmigrate]
  cases hlocation : target.location with
  | inline =>
    simp only [Except.mapError, bind, Except.bind]
    cases spliceTarget path file target target.text with
    | error e => rfl
    | ok spliced => rfl
  | external template =>
    simp only [Except.mapError, bind, Except.bind, decide_true, Bool.true_or, if_true]
    rfl

/-- Other letter cases, parts of the words, and attributes of elements within a case: the template is
    read, and nothing in it is replaced. -/
theorem unmentioned_unchanged_lookalikes :
    let text := "<UI-VIEW uisref='uiSre'>\x7bn, k, a \x7b<p ui_view=ui-vie>\x7d\x7d</UI-VIEW>"
    let t : Tree := .memory [(⟨"a.html"⟩, text)] (.directory []) ⟨"/"⟩
    let c : TypeScript.Component := ⟨"A", some (.external "./a.html" ⟨"a.html"⟩)⟩
    (Markup.parse text).isOk = true ∧ Vocabulary.isMentionedIn text = false ∧
      Markup.migrate text = .ok text ∧
      anyTarget? t c = some ⟨"A", .external ⟨"a.html"⟩, text⟩ ∧ target? t c = none ∧
      ∀ path file, migrateTarget path (file, [], []) ⟨"A", .external ⟨"a.html"⟩, text⟩ =
        .ok (file, [], []) := by
  intro text t c
  have hwords : Vocabulary.isMentionedIn text = false := by decide +kernel
  have hany : anyTarget? t c = some ⟨"A", .external ⟨"a.html"⟩, text⟩ := by decide +kernel
  have hnone : target? t c = none := by decide +kernel
  obtain ⟨hall, htargets⟩ := unmentioned_unchanged
  obtain ⟨-, -, hskipped⟩ := htargets t c _ hany hnone
  exact ⟨by decide +kernel, hwords, (hall text hwords).2, hany, hnone,
    fun path file => hskipped path file [] []⟩

end Workspace
end RouterShift
