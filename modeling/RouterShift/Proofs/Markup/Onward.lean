import RouterShift.Proofs.Markup.Outlets
import RouterShift.Proofs.Markup.Recovery

/-! Reading on inside of open elements. While a template is read, some elements are open, and what
    is still to come closes them one after the other. `ReadsOn` says of a text that it is read to
    the end from inside of these elements, with nothing in it to replace. A text is shown to be so
    from its end: each rule below puts one construct in front of a text that reads on. -/

namespace RouterShift.Markup
open Text (Cursor byteLength byteLength_append)

/-! ### Nothing to replace -/

/-- Neither the name of an element nor one of its attributes is of the vocabulary. -/
def Tag.isQuiet (t : Tag) : Bool :=
  decide (t.name ∉ Vocabulary.outletTags) && t.attributes.all (·.name ∉ Vocabulary.attributes)

def Quiet (nodes : List Node) : Prop := ∀ t ∈ tagsAll nodes, t.isQuiet = true

theorem tagsAll_append : ∀ a b : List Node, tagsAll (a ++ b) = tagsAll a ++ tagsAll b
  | [], b => by rw [List.nil_append, tagsAll, List.nil_append]
  | node :: a, b => by rw [List.cons_append, tagsAll, tagsAll, tagsAll_append a b, List.append_assoc]

theorem Quiet.append {a b : List Node} (ha : Quiet a) (hb : Quiet b) : Quiet (a ++ b) := by
  intro t ht
  rw [tagsAll_append] at ht
  rcases List.mem_append.1 ht with ht | ht
  · exact ha t ht
  · exact hb t ht

theorem quiet_nil : Quiet [] := by
  intro t ht
  rw [tagsAll] at ht
  cases ht

theorem quiet_flush (pending : Option Nat) (pos : Nat) : Quiet (flush pending pos) := by
  intro t ht
  cases pending with
  | none => rw [flush, tagsAll] at ht; cases ht
  | some start => rw [flush, tagsAll, tagsAll, Node.tags] at ht; cases ht

theorem quiet_element {tag : Tag} {children : List Node} (htag : tag.isQuiet = true)
    (hchildren : Quiet children) : Quiet [.element tag children] := by
  intro t ht
  rw [tagsAll, tagsAll, Node.tags, List.append_nil] at ht
  rcases List.mem_cons.1 ht with rfl | ht
  · exact htag
  · exact hchildren t ht

/-- The table of attributes has the vocabulary in it, but for the outlet attribute. -/
theorem translateAttribute?_isSome {a : Attribute} : (translateAttribute? a).isSome = true ↔
    a.name ∈ Vocabulary.attributes ∧ a.name ≠ Vocabulary.view := by
  have hnames : ∀ name ∈ [Vocabulary.sref, Vocabulary.params, Vocabulary.srefActive,
      Vocabulary.srefActiveEq], name ∈ Vocabulary.attributes ∧ name ≠ Vocabulary.view := by decide
  constructor
  · intro h
    refine hnames a.name ?_
    by_contra hname
    simp only [List.mem_cons, List.not_mem_nil, or_false, not_or] at hname
    rw [translateAttribute?, if_neg hname.1, if_neg hname.2.1, if_neg hname.2.2.1,
      if_neg hname.2.2.2] at h
    cases h
  · rintro ⟨hname, hview⟩
    simp only [Vocabulary.attributes, List.mem_cons, List.not_mem_nil, or_false] at hname
    rw [translateAttribute?]
    rcases hname with h | h | h | h | h
    · rw [if_pos h]; rfl
    · rw [h, if_neg (by decide), if_pos rfl]; rfl
    · rw [h, if_neg (by decide), if_neg (by decide), if_neg (by decide), if_pos rfl]; rfl
    · rw [h, if_neg (by decide), if_neg (by decide), if_pos rfl]
      split <;> rfl
    · exact absurd h hview

theorem translateAttribute?_eq_none {a : Attribute} (h : a.name ∉ Vocabulary.attributes) :
    translateAttribute? a = none := by
  rw [← Option.not_isSome_iff_eq_none, translateAttribute?_isSome]
  exact fun hname => h hname.1

/-- Quiet nodes have nothing that a migration replaces. -/
theorem Quiet.replacements_eq_nil {nodes : List Node} (h : Quiet nodes) : replacements nodes = [] := by
  have hparts : ∀ t ∈ tagsAll nodes, t.name ∉ Vocabulary.outletTags ∧
      ∀ a ∈ t.attributes, a.name ∉ Vocabulary.attributes := by
    intro t ht
    have := h t ht
    simp only [Tag.isQuiet, Bool.and_eq_true, decide_eq_true_eq, List.all_eq_true] at this
    exact this
  have hview : ∀ {a : Attribute}, a.name ∉ Vocabulary.attributes → a.name ≠ Vocabulary.view := by
    rintro a ha hname
    exact ha (by rw [hname]; decide)
  have hhosts : (visitAll nodes).flatMap Visit.hosts = [] := by
    rw [visitAll_eq, List.flatMap_assoc, List.flatMap_eq_nil_iff]
    intro t ht
    rw [← Tag.hosts, Tag.hosts_eq, List.flatMap_eq_nil_iff]
    intro a ha
    rw [if_neg (hview ((hparts t ht).2 a ha))]
  have hinner : (visitAll nodes).flatMap Visit.replacements = [] := by
    rw [visitAll_eq, List.flatMap_assoc, List.flatMap_eq_nil_iff]
    intro t ht
    rw [← Tag.inner, Tag.inner_eq, Tag.renamings, if_neg (hparts t ht).1, List.nil_append,
      List.flatMap_eq_nil_iff]
    intro a ha
    have hname := (hparts t ht).2 a ha
    rw [Attribute.translations, if_neg (hview hname), translateAttribute?_eq_none hname]
    rfl
  rw [replacements, hhosts, hinner]
  rfl

/-! ### One run of siblings -/

/-- Wherever a text stands, the siblings it starts with are read and there is nothing to replace in
    them; `P` is told how they end, and the text from there on. -/
def Run (opened : List String) (inCase : Bool) (P : Stop → List Char → Prop) (cs : List Char) :
    Prop :=
  ∀ (pending : Option Nat) (pos : Nat), ∃ nodes stop next,
    siblingsFrom opened inCase pending ⟨pos, cs⟩ = .ok ((nodes, stop), next) ∧ Quiet nodes ∧
      P stop next.rest

section
variable {opened : List String} {inCase : Bool} {P : Stop → List Char → Prop} {cs after : List Char}

theorem Run.stop {stop : Stop} (hstop : stopOf inCase cs = some stop) (hP : P stop cs) :
    Run opened inCase P cs := fun pending pos =>
  ⟨_, stop, _, siblingsFrom_stop hstop opened pending pos, quiet_flush pending pos, hP⟩

theorem Run.textRun (htext : ∀ pos, TextRun opened inCase pos cs after)
    (h : Run opened inCase P after) : Run opened inCase P (cs ++ after) := by
  intro pending pos
  obtain ⟨nodes, stop, next, hread, hquiet, hP⟩ := h (openText pending pos cs) (pos + byteLength cs)
  refine ⟨nodes, stop, next, ?_, hquiet, hP⟩
  rw [siblingsFrom_textRun (htext pos), hread]

/-- A construct that is read as a quiet node, in front of what is read behind it. -/
theorem Run.piece (h : ∀ (pending : Option Nat) (pos : Nat), ∃ node next,
    siblingsFrom opened inCase pending ⟨pos, cs⟩ = (siblingsFrom opened inCase none next).map
      (prepend (flush pending pos ++ [node])) ∧ Quiet [node] ∧ Run opened inCase P next.rest) :
    Run opened inCase P cs := by
  intro pending pos
  obtain ⟨node, next, hread, hnode, hnext⟩ := h pending pos
  obtain ⟨nodes, stop, last, hmore, hquiet, hP⟩ := hnext none next.pos
  refine ⟨_, stop, last, by rw [hread, hmore, prepend_ok], ?_, hP⟩
  exact ((quiet_flush pending pos).append hnode).append hquiet

theorem Run.comment {comment : List Char} (hcomment : CommentProper comment)
    (h : Run opened inCase P after) : Run opened inCase P (comment ++ after) := by
  refine .piece fun pending pos => ⟨_, _, siblingsFrom_comment hcomment opened inCase pending pos after,
    ?_, h⟩
  intro t ht
  rw [tagsAll, tagsAll, Node.tags] at ht
  cases ht

/-- An element that is read to its end. -/
theorem Run.element {t : WrittenTag} (ht : t.Proper) {rest : List Char}
    (h : ∀ pos, ∃ node next, bodyFrom opened inCase pos t.name (t.node pos)
      ⟨pos + byteLength t.chars, rest⟩ = .ok (node, next) ∧ Quiet [node] ∧
        Run opened inCase P next.rest) : Run opened inCase P (t.chars ++ rest) := by
  refine .piece fun pending pos => ?_
  obtain ⟨node, next, hbody, hquiet, hnext⟩ := h pos
  exact ⟨node, next, siblingsFrom_element ht hbody pending, hquiet, hnext⟩

theorem Run.single {t : WrittenTag} (ht : t.Proper) (hsingle : t.isSingle = true)
    (hquiet : ∀ pos, (t.node pos).isQuiet = true) (h : Run opened inCase P after) :
    Run opened inCase P (t.chars ++ after) :=
  .element ht fun pos => ⟨_, _, bodyFrom_single hsingle opened inCase pos _,
    quiet_element (hquiet pos) quiet_nil, h⟩

theorem Run.raw {t : WrittenTag} {body : List Char} {stop : WrittenEnd} (ht : t.Proper)
    (hsingle : t.isSingle = false) (hraw : t.isRaw = true) (hstop : stop.Proper)
    (hseek : seek? (endNeedle t.name) (body ++ stop.chars) = some (body, stop.chars))
    (hquiet : ∀ pos, (t.node pos).isQuiet = true) (h : Run opened inCase P after) :
    Run opened inCase P (t.chars ++ (body ++ (stop.chars ++ after))) := by
  refine .element ht fun pos => ⟨_, _, bodyFrom_raw hsingle hraw hstop hseek opened inCase pos after,
    ?_, h⟩
  rw [Written.node]
  refine quiet_element (hquiet pos) fun t ht => ?_
  rw [rawChildren] at ht
  split at ht <;> cases ht

end

/-! ### Open elements -/

/-- How the children of an element may end among the other open elements: by its own end tag, by
    that of another one, or with the text around them. `K` is told where reading goes on then. -/
def Ends (name : String) (opened : List String) (K : List Char → Prop) : Stop → List Char → Prop
  | .close, rest => ∃ (e : WrittenEnd) (more : List Char), rest = e.chars ++ more ∧ e.Proper ∧
      (sameName (String.ofList e.name) name = true ∧ K more ∨
        sameName (String.ofList e.name) name = false ∧
          opened.any (sameName (String.ofList e.name)) = true ∧ K rest)
  | _, rest => K rest

/-- What is told how the children of the innermost of some elements end. -/
def Onward (opened : List String) (inCase : Bool) (final : Stop → List Char → Prop) :
    List String → Stop → List Char → Prop
  | [] => final
  | name :: inner => Ends name (inner ++ opened)
      (Run (inner ++ opened) inCase (Onward opened inCase final inner))

/-- From inside of the elements `inner`, the innermost first, a text is read to the end of the
    siblings that all of these elements are among; `opened` are the elements around. -/
def ReadsOn (opened : List String) (inCase : Bool) (final : Stop → List Char → Prop)
    (inner : List String) (cs : List Char) : Prop :=
  Run (inner ++ opened) inCase (Onward opened inCase final inner) cs

section
variable {opened : List String} {inCase : Bool} {final : Stop → List Char → Prop}
  {inner : List String} {cs : List Char}

/-- A start tag opens one more element. -/
theorem ReadsOn.start {t : WrittenTag} (ht : t.Proper) (hsingle : t.isSingle = false)
    (hraw : t.isRaw = false) (hquiet : ∀ pos, (t.node pos).isQuiet = true)
    (h : ReadsOn opened inCase final (String.ofList t.name :: inner) cs) :
    ReadsOn opened inCase final inner (t.chars ++ cs) := by
  refine Run.element ht fun pos => ?_
  obtain ⟨children, stop, ⟨inside, rest⟩, hread, hchildren, hends⟩ :=
    h none (pos + byteLength t.chars)
  have hs : ((t.node pos).selfClosing || (t.node pos).isVoid) = false := hsingle
  have hr : isRawText (t.node pos).name = false := hraw
  have hread : siblingsFrom ((t.node pos).name :: (inner ++ opened)) inCase none
      ⟨pos + byteLength t.chars, cs⟩ = .ok ((children, stop), ⟨inside, rest⟩) := hread
  rw [bodyFrom, hs, hr, if_neg Bool.false_ne_true, if_neg Bool.false_ne_true]
  simp only [hread]
  cases stop with
  | eof => exact ⟨_, _, rfl, quiet_element (hquiet pos) hchildren, hends⟩
  | caseEnd => exact ⟨_, _, rfl, quiet_element (hquiet pos) hchildren, hends⟩
  | close =>
    obtain ⟨e, more, hrest, he, ⟨hsame, hmore⟩ | ⟨hother, houter, hmore⟩⟩ := hends
    · have hsame' : sameName (e.node inside).name (t.node pos).name = true := hsame
      simp only at hrest
      simp only [hrest, readEndTag_of_proper he, if_pos hsame']
      exact ⟨_, _, rfl, quiet_element (hquiet pos) hchildren, hmore⟩
    · have hother' : ¬ sameName (e.node inside).name (t.node pos).name = true :=
        Bool.eq_false_iff.1 hother
      have houter' : (inner ++ opened).any (sameName (e.node inside).name) = true := houter
      simp only at hrest hmore
      simp only [hrest, readEndTag_of_proper he, if_neg hother', if_pos houter']
      exact ⟨_, _, rfl, quiet_element (hquiet pos) hchildren, hrest ▸ hmore⟩

/-- An end tag closes the innermost element of its name, and those inside of it with it. There may
    be more elements open than those that are known of. -/
theorem ReadsOn.stop {e : WrittenEnd} (he : e.Proper) {name : String}
    (hname : sameName (String.ofList e.name) name = true) {outer : List String}
    (h : ∀ inner, outer.Sublist inner → ReadsOn opened inCase final inner cs) :
    ∀ {inner : List String}, (name :: outer).Sublist inner →
      ReadsOn opened inCase final inner (e.chars ++ cs)
  | [], hsub => by cases hsub
  | other :: inner, hsub => by
    refine Run.stop (stopOf_end inCase e cs) ⟨e, cs, rfl, he, ?_⟩
    by_cases hother : sameName (String.ofList e.name) other = true
    · exact .inl ⟨hother, h inner hsub.tail⟩
    · have hne : other ≠ name := by
        rintro rfl
        exact hother hname
      have hsub' : (name :: outer).Sublist inner := by
        cases hsub with
        | cons _ hsub => exact hsub
        | cons_cons _ _ => exact absurd rfl hne
      refine .inr ⟨Bool.eq_false_iff.2 hother, ?_, ReadsOn.stop he hname h hsub'⟩
      rw [List.any_append, Bool.or_eq_true]
      exact .inl (List.any_eq_true.2 ⟨name, hsub'.subset List.mem_cons_self, hname⟩)

/-- Where the text or the case ends, all open elements do. -/
theorem ReadsOn.over {stop : Stop} (hstop : stopOf inCase cs = some stop) (hclose : stop ≠ .close)
    (hfinal : final stop cs) : ∀ inner : List String, ReadsOn opened inCase final inner cs
  | [] => Run.stop hstop hfinal
  | name :: inner => by
    have ih := ReadsOn.over hstop hclose hfinal inner
    refine Run.stop hstop ?_
    cases stop with
    | eof => exact ih
    | caseEnd => exact ih
    | close => exact absurd rfl hclose

end

/-! ### Expansion forms -/

/-- The cases a text starts with are read up to `after`, and there is nothing to replace in them. -/
def CasesRun (opened : List String) (after cs : List Char) : Prop :=
  ∀ pos : Nat, ∃ cases last, casesFrom? opened ⟨pos, cs⟩ = .ok (some (cases, ⟨last, after⟩)) ∧
    ∀ t ∈ tagsCases cases, t.isQuiet = true

section
variable {opened : List String} {after : List Char}

theorem CasesRun.done {blanks : List Char} (hblanks : ∀ c ∈ blanks, Text.isAsciiBlank c = true) :
    CasesRun opened after (blanks ++ '}' :: after) := by
  intro pos
  refine ⟨[], _, casesFrom?_done hblanks opened pos after, fun t ht => ?_⟩
  rw [tagsCases] at ht
  cases ht

theorem CasesRun.case {front label gap children rest : List Char}
    (hfront : ∀ c ∈ front, Text.isAsciiBlank c = true) (hne : label ≠ [])
    (hlabel : ∀ c ∈ label, isLabelChar c = true) (hgap : ∀ c ∈ gap, Text.isAsciiBlank c = true)
    (hchildren : ReadsOn opened true (fun stop more => stop = .caseEnd ∧ more = '}' :: rest) []
      (children ++ '}' :: rest)) (hrest : CasesRun opened after rest) :
    CasesRun opened after
      (front ++ (label ++ (gap ++ '{' :: (children ++ '}' :: rest)))) := by
  intro pos
  obtain ⟨nodes, stop, ⟨inside, more⟩, hread, hquiet, rfl, hmore⟩ :=
    hchildren none (pos + byteLength front + byteLength label + byteLength gap + 1)
  simp only at hmore
  subst hmore
  obtain ⟨cases, last, hcases, hquiet'⟩ := hrest (inside + 1)
  have hsize : ('}' : Char).utf8Size = 1 := rfl
  have hread : siblingsFrom opened true none _ = _ := hread
  rw [casesFrom?_case hfront hne hlabel hgap]
  simp only [hread, Cursor.skip_one, hsize, hcases, Except.map, Option.map_some]
  refine ⟨_, _, rfl, fun t ht => ?_⟩
  rw [tagsCases] at ht
  rcases List.mem_append.1 ht with ht | ht
  · exact hquiet t ht
  · exact hquiet' t ht

theorem Run.form {inCase : Bool} {P : Stop → List Char → Prop} {header : WrittenHeader}
    (hheader : header.Proper) {cs : List Char} (hcases : CasesRun opened after cs)
    (h : Run opened inCase P after) : Run opened inCase P ('{' :: (header.chars ++ cs)) := by
  refine .piece fun pending pos => ?_
  obtain ⟨cases, last, hread, hquiet⟩ := hcases (pos + 1 + byteLength header.chars)
  refine ⟨_, _, siblingsFrom_form hheader hread inCase pending, fun t ht => ?_, h⟩
  rw [tagsAll, tagsAll, Node.tags, List.append_nil] at ht
  exact hquiet t ht

end

end RouterShift.Markup
