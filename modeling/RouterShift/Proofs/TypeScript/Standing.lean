import RouterShift.Proofs.Edit.Moved
import RouterShift.Proofs.TypeScript.Declarations

/-! Literals where they stand in a source. An inline template stands in the text of its file, between
    its delimiters (`SourceFile.readIn`), and a text and a span leave no choice what literal stands
    there. So once a changed file is read again and its components are found where the changes have
    moved them, what their templates say is known. -/

namespace RouterShift.TypeScript

open Grammar.Tree Text Edit

/-! ### Standing in a text -/

/-- The raw text of the literal is what stands along its span, behind a delimiter of one byte. -/
structure Literal.StandsIn (l : Literal) (cs : List Char) : Prop where
  oneByte : l.delimiter.utf8Size = 1
  parts : ∃ front back, cs = front ++ l.delimiter :: (l.raw.toList ++ back) ∧
    byteLength front + 1 = l.span.start ∧ l.span.start + byteLength l.raw.toList = l.span.stop

namespace Literal.StandsIn

variable {l l' : Literal} {cs : List Char} {r : Replacement}

theorem ordered (h : l.StandsIn cs) : l.span.start ≤ l.span.stop := by
  obtain ⟨front, back, -, -, hstop⟩ := h.parts
  omega

/-- A text and a span say what the literal is. -/
theorem unique (h : l.StandsIn cs) (h' : l'.StandsIn cs) (hspan : l.span = l'.span) : l = l' := by
  obtain ⟨front, back, hcs, hstart, hstop⟩ := h.parts
  obtain ⟨front', back', hcs', hstart', hstop'⟩ := h'.parts
  obtain ⟨span, d, raw⟩ := l
  obtain ⟨span', d', raw'⟩ := l'
  simp only at hspan hcs hcs' hstart hstart' hstop hstop'
  subst hspan
  obtain ⟨rfl, htail⟩ := append_inj_of_byteLength (hcs.symm.trans hcs') (by omega)
  obtain ⟨rfl, hrest⟩ := List.cons.inj htail
  have hlength : byteLength raw.toList = byteLength raw'.toList := by omega
  obtain ⟨hraw, -⟩ := append_inj_of_byteLength hrest hlength
  rw [String.toList_inj] at hraw
  rw [hraw]

/-- What takes the place of the raw text stands in the new one. -/
theorem replaced (h : l.StandsIn cs) (hr : l.span = r.range) :
    (⟨r.written, l.delimiter, r.text⟩ : Literal).StandsIn (splice cs r) := by
  obtain ⟨front, back, rfl, hstart, hstop⟩ := h.parts
  rw [hr] at hstart hstop
  have hfront : byteLength (front ++ [l.delimiter]) = r.range.start := by
    rw [byteLength_append, byteLength, byteLength, h.oneByte]
    exact hstart
  have hsplice : splice (front ++ l.delimiter :: (l.raw.toList ++ back)) r =
      front ++ l.delimiter :: (r.text.toList ++ back) := by
    simpa using splice_append (b := back) hfront hstop
  exact ⟨h.oneByte, front, back, hsplice, hstart, rfl⟩

/-- What a replacement elsewhere leaves standing. -/
theorem moved {s : Span} (h : l.StandsIn cs) (hr : Addressable cs r.range)
    (hs : l.span.moved? r = some s) : ({ l with span := s } : Literal).StandsIn (splice cs r) := by
  obtain ⟨front, back, hcs, hstart, hstop⟩ := h.parts
  obtain ⟨a, m, b, hcs', ha, hm⟩ := addressable_iff.1 hr
  have hwritten : byteLength (a ++ r.text.toList) = r.written.stop := by
    rw [byteLength_append, ha, Replacement.written]
  rcases moved?_cases hs with ⟨hlt, rfl⟩ | ⟨hlt, hstart', hstop'⟩
  · have hboth : (front ++ l.delimiter :: l.raw.toList) ++ back = a ++ (m ++ b) := by
      rw [← List.append_assoc a, ← hcs', hcs]
      simp
    obtain ⟨x, rfl, -⟩ := prefix_of_byteLength_le hboth (by
      rw [byteLength_append, byteLength, h.oneByte]
      omega)
    refine ⟨h.oneByte, front, x ++ (r.text.toList ++ b), ?_, hstart, hstop⟩
    rw [hcs', splice_append ha hm]
    simp
  · obtain ⟨x, rfl, rfl⟩ : ∃ x, front = (a ++ m) ++ x ∧
        b = x ++ (l.delimiter :: (l.raw.toList ++ back)) := by
      refine prefix_of_byteLength_le (hcs'.symm.trans hcs) ?_
      rw [byteLength_append]; omega
    simp only [byteLength_append] at hstart hwritten
    refine ⟨h.oneByte, a ++ r.text.toList ++ x, back, ?_, ?_, ?_⟩
    · rw [hcs', splice_append ha hm]
      simp
    · rw [byteLength_append, byteLength_append]
      simp only
      omega
    · simp only
      omega

/-- What replacements elsewhere leave standing, each made in what those before have left. -/
theorem movedAll {rs : List Replacement} {s : Span} (h : l.StandsIn cs) (hcut : CutInPlace cs rs)
    (hs : l.span.movedAll? rs = some s) :
    ({ l with span := s } : Literal).StandsIn (rs.foldl splice cs) := by
  induction rs generalizing l cs with
  | nil =>
    obtain rfl : l.span = s := by simpa [Span.movedAll?] using hs
    exact h
  | cons r rs ih =>
    rw [Span.movedAll?, List.foldlM_cons, Option.bind_eq_bind, Option.bind_eq_some_iff] at hs
    obtain ⟨t, ht, hs⟩ := hs
    have hrest := ih (h.moved hcut.1 ht) hcut.2 hs
    exact hrest

end Literal.StandsIn

/-! ### The literals of a source -/

/-- The literal takes up its span of a text, between two delimiters. -/
structure Literal.ReadIn (l : Literal) (cs : List Char) : Prop where
  delimiter : l.delimiter ∈ Literal.delimiters
  parts : ∃ front back, cs = front ++ l.delimiter :: (l.raw.toList ++ l.delimiter :: back) ∧
    byteLength front + 1 = l.span.start ∧ l.span.start + byteLength l.raw.toList = l.span.stop

theorem Literal.ReadIn.standsIn {l : Literal} {cs : List Char} (h : l.ReadIn cs) :
    l.StandsIn cs := by
  obtain ⟨front, back, hcs, hstart, hstop⟩ := h.parts
  exact ⟨utf8Size_of_delimiter _ h.delimiter, front, _, hcs, hstart, hstop⟩

/-- A literal is what stands along a node of the tree, but for the delimiters. -/
theorem literal?_eq_some {cs : List Char} {n : Node} {l : Literal} (hn : n.WellFormed cs)
    (h : literal? cs n = some l) :
    n.isLiteral = true ∧ l.ReadIn cs ∧ l.span = ⟨n.span.start + 1, n.span.stop - 1⟩ ∧
      n.text cs = l.delimiter :: (l.raw.toList ++ [l.delimiter]) := by
  rw [literal?] at h
  split at h
  · next hcond =>
    obtain ⟨d, hd, -, raw, htext⟩ := hn.literal hcond.1
    obtain ⟨front, back, hcs, hfront, hstop⟩ := hn.parts
    have hsize := utf8Size_of_delimiter d hd
    rw [htext] at hcs hstop
    have hlength : byteLength (d :: (raw ++ [d])) = byteLength raw + 2 := by
      rw [byteLength, byteLength_append, byteLength, byteLength, hsize]
      omega
    rw [hlength] at hstop
    have hraw : slice? cs (n.span.start + 1) (n.span.stop - 1) = some raw := by
      refine slice?_eq_some.2 ⟨front ++ [d], d :: back, by simpa using hcs, ?_, by omega⟩
      rw [byteLength_append, byteLength, byteLength, hsize, hfront]
    simp only [Option.bind_eq_bind, htext, List.head?_cons, hraw, Option.bind_some,
      Option.pure_def, Option.some.injEq] at h
    subst h
    refine ⟨hcond.1, ⟨hd, front, back, by simpa using hcs, by simp only; omega, ?_⟩, rfl, ?_⟩
    · simp only [String.toList_ofList]
      omega
    · simpa using htext
  · cases h

/-- The inline template of a component. -/
def Component.inline? (c : Component) : Option Literal :=
  match c.template with
  | some (.inline l) => some l
  | _ => none

theorem Component.inline?_eq_some {c : Component} {l : Literal} :
    c.inline? = some l ↔ c.template = some (.inline l) := by
  rw [Component.inline?]
  split
  · next h => simp [h]
  · next h =>
    constructor
    · intro hl
      cases hl
    · intro ht
      exact absurd ht (h l)

section
variable [Reader] {file : SourceFile} {d : Declaration} {c : Component} {l : Literal}

/-- An inline template is the literal of a node in the metadata of a class. -/
theorem SourceFile.exists_value (hd : d ∈ file.declarations)
    (hc : d.component? file.path file.text.toList = some c) (hl : c.inline? = some l) :
    ∃ object pair value, d.metadata? file.text.toList = some object ∧
      templatePair? file.text.toList object = some (.template, pair) ∧
      pair.child? .value = some value ∧ literal? file.text.toList value = some l ∧
      value ∈ subtreesAmong file.nodes := by
  obtain ⟨object, hobject, rfl⟩ := Option.map_eq_some_iff.1 hc
  obtain ⟨pair, value, hpair, hvalue, hliteral⟩ :=
    templateSource?_eq_inline (Component.inline?_eq_some.1 hl)
  obtain ⟨x, hx, hxobject⟩ := List.exists_of_findSome?_eq_some hobject
  refine ⟨object, pair, value, hobject, hpair, hvalue, hliteral, ?_⟩
  have hmem := subtreesAmong_trans (mem_subtreesAmong_of_decorators hd hx)
    (mem_of_componentObject? hxobject)
  have hpair := (mem_partsOf.1 (templatePair?_eq_some hpair).1).1
  have hmem := child_mem_subtreesAmong hmem (Grammar.Tree.mem_parts.1 hpair).1
  exact child_mem_subtreesAmong hmem (mem_of_child? hvalue).1

/-- The inline templates of a file stand in its text. -/
theorem SourceFile.readIn (h : Reader.Sound) (hc : c ∈ file.components) (hl : c.inline? = some l) :
    l.ReadIn file.text.toList := by
  obtain ⟨d, hd, hc⟩ := List.mem_filterMap.1 hc
  obtain ⟨object, pair, value, -, -, -, hliteral, hmem⟩ := exists_value hd hc hl
  exact (literal?_eq_some (formed h hmem) hliteral).2.1

theorem SourceFile.standsIn (h : Reader.Sound) (hc : c ∈ file.components)
    (hl : c.inline? = some l) : l.StandsIn file.text.toList :=
  (readIn h hc hl).standsIn

end
end RouterShift.TypeScript
