import RouterShift.Proofs.Markup.Migration

/-! Elements whose content is text. The body of such an element ends at the first `</` with its name
    behind it, letter case aside, and this is all that is looked for: what is read there as an end tag
    may have a longer name. So there is an end tag and nothing before it starts like one, and it has
    the name of the element just if the name is over there (`parse_rawText`). -/

namespace RouterShift.Markup
open Text (byteLength byteLength_append isAsciiBlank)

mutual
/-- The elements of a node with their children, parents before children. -/
def Node.elements : Node → List (Tag × List Node)
  | .text _ => []
  | .comment _ => []
  | .element tag children => (tag, children) :: elementsAll children
  | .expansion _ _ cases => elementsCases cases

def elementsAll : List Node → List (Tag × List Node)
  | [] => []
  | node :: rest => node.elements ++ elementsAll rest

def elementsCases : List Case → List (Tag × List Node)
  | [] => []
  | .mk _ _ children :: rest => elementsAll children ++ elementsCases rest
end

/-- The text starts like an end tag of this name, letter case aside. -/
def StartsEnd (name : String) (cs : List Char) : Prop :=
  ∃ n more, cs = '<' :: '/' :: (n ++ more) ∧ sameName (String.ofList n) name = true

/-- The name in a start of an end tag is over at this character. -/
def endsName (c : Char) : Bool := isAsciiBlank c || c == '>'

/-- An element whose body is the text up to the first start of an end tag of its name. -/
structure Tag.Raw (m : String) (t : Tag) (children : List Node) (e : EndTag) (body back : List Char) :
    Prop where
  endTag : t.endTag = some e
  place : ∃ front, m.toList = front ++ (body ++ back) ∧ byteLength front = t.startTag.stop ∧
    byteLength (front ++ body) = e.span.start
  children : children = if body = [] then [] else [.text ⟨t.startTag.stop, e.span.start⟩]
  starts : StartsEnd t.name back
  first : ∀ x y, body = x ++ y → y ≠ [] → ¬ StartsEnd t.name (y ++ back)
  named : ∃ n c more, back = '<' :: '/' :: (n ++ c :: more) ∧
    sameName (String.ofList n) t.name = true ∧ n <+: e.name.toList ∧
      (sameName e.name t.name = true ↔ endsName c = true)

/-! ### Names up to letter case -/

section
variable {a b name cs : List Char}

theorem sameName_ofList : sameName (String.ofList a) (String.ofList b) = true ↔
    a.map Text.lower = b.map Text.lower := by
  rw [sameName, Text.sameName, String.toList_ofList, String.toList_ofList, beq_iff_eq]

/-- Two names of one element are names of each other. -/
theorem sameName_trans {x y z : String} (h : sameName x y = true) (h' : sameName x z = true) :
    sameName y z = true := by
  simp only [sameName, Text.sameName, beq_iff_eq] at h h' ⊢
  exact h.symm.trans h'

/-- An element that takes no children is none whose content is text. -/
theorem isVoid_eq_false_of_isRawText {x : String} (h : isRawText x = true) : isVoid x = false := by
  obtain ⟨raw, hraw, hx⟩ := List.any_eq_true.1 h
  rw [isVoid, List.any_eq_false]
  intro void hvoid hsame
  have hapart : ∀ raw ∈ rawTextNames, ∀ void ∈ voidNames, sameName raw void = false := by decide
  have hother := hapart raw hraw void hvoid
  rw [sameName_trans hx hsame] at hother
  cases hother

theorem startsEnd_iff : StartsEnd (String.ofList name) cs ↔
    (endNeedle name).isPrefixOf (cs.map Text.lower) = true := by
  constructor
  · rintro ⟨n, more, rfl, hsame⟩
    rw [List.isPrefixOf_iff_prefix, endNeedle, ← sameName_ofList.1 hsame, List.map_cons,
      List.map_cons, List.map_append]
    exact ⟨more.map Text.lower, rfl⟩
  · intro h
    obtain ⟨more, rfl⟩ := eq_cons_of_endNeedle h
    have hmore : name.map Text.lower <+: more.map Text.lower := by
      have hall := List.isPrefixOf_iff_prefix.1 h
      exact (List.cons_prefix_cons.1 (List.cons_prefix_cons.1 hall).2).2
    refine ⟨more.take name.length, more.drop name.length, by rw [List.take_append_drop], ?_⟩
    rw [sameName_ofList, List.map_take]
    have htake := List.prefix_iff_eq_take.1 hmore
    rw [List.length_map] at htake
    exact htake.symm

/-- A name in a tag has nothing in it that ends a name, and so has no other way to write it. -/
theorem endsName_eq_false (hname : ∀ c ∈ b, isTagNameChar c = true)
    (h : a.map Text.lower = b.map Text.lower) : ∀ c ∈ a, endsName c = false := by
  intro c hc
  rw [← Bool.not_eq_true]
  intro hends
  have hspecial : c ∈ [' ', '\t', '\n', '\x0c', '\r', '>'] := by
    simp only [endsName, isAsciiBlank, Bool.or_eq_true, beq_iff_eq] at hends
    simp only [List.mem_cons, List.not_mem_nil, or_false]
    tauto
  have hlower : ∀ d ∈ [' ', '\t', '\n', '\x0c', '\r', '>'],
      Text.lower d = d ∧ ¬ ('a' ≤ d ∧ d ≤ 'z') ∧ isTagNameChar d = false := by
    simp only [List.forall_mem_cons, List.not_mem_nil, false_imp_iff, implies_true]
    decide
  obtain ⟨hsame, hletter, hnot⟩ := hlower c hspecial
  have hmem : c ∈ b.map Text.lower := by
    rw [← h, ← hsame]
    exact List.mem_map_of_mem hc
  obtain ⟨d, hd, hdc⟩ := List.mem_map.1 hmem
  rw [eq_of_lower_eq hdc hletter] at hd
  rw [hname c hd] at hnot
  cases hnot

end

/-! ### The end of a body -/

/-- A needle is found where it stands first. -/
theorem seek?_first {needle : List Char} : ∀ {front cs back : List Char},
    seek? needle cs = some (front, back) → ∀ x y, front = x ++ y → y ≠ [] →
      needle.isPrefixOf ((y ++ back).map Text.lower) = false
  | [], _, _, _, x, y, hxy, hne => by
    exact absurd (List.append_eq_nil_iff.1 hxy.symm).2 hne
  | f :: front, [], _, h, _, _, _, _ => by
    rw [seek?] at h
    split at h <;> cases h
  | f :: front, c :: cs, back, h, x, y, hxy, hne => by
    obtain ⟨hcs, -⟩ := seek?_eq_some h
    rw [seek?] at h
    split at h
    · cases h
    · next hstart =>
      simp only [Option.map_eq_some_iff, Prod.exists, Prod.mk.injEq] at h
      obtain ⟨front', back', hseek, hfront, rfl⟩ := h
      obtain ⟨rfl, rfl⟩ := List.cons.inj hfront
      cases x with
      | nil =>
        rw [List.nil_append] at hxy
        rw [← hxy, ← hcs]
        exact Bool.eq_false_iff.2 hstart
      | cons d x =>
        obtain ⟨-, hxy⟩ := List.cons.inj hxy
        exact seek?_first hseek x y hxy hne

/-- The name that was looked for starts the name of the end tag that was found. -/
theorem WrittenEnd.Proper.prefix_name {e : WrittenEnd} (he : e.Proper) {name n more rest : List Char}
    (hname : ∀ c ∈ name, isTagNameChar c = true)
    (hn : sameName (String.ofList n) (String.ofList name) = true)
    (h : e.chars ++ rest = '<' :: '/' :: (n ++ more)) : n <+: e.name := by
  have happend : e.name ++ (e.blanks ++ '>' :: rest) = n ++ more := by
    simpa [WrittenEnd.chars] using h
  rcases List.append_eq_append_iff.1 happend with ⟨x, hx, hback⟩ | ⟨x, hx, -⟩
  · cases x with
    | nil => exact ⟨[], by rw [hx, List.append_nil, List.append_nil]⟩
    | cons c x =>
      -- what ends the name of the tag would be in the name that was looked for
      have hends : endsName c = true := by
        cases hblanks : e.blanks with
        | nil =>
          rw [hblanks] at hback
          obtain ⟨rfl, -⟩ := List.cons.inj hback
          rfl
        | cons d blanks =>
          rw [hblanks] at hback
          obtain ⟨rfl, -⟩ := List.cons.inj hback
          rw [endsName, he.blanks d (by rw [hblanks]; exact List.mem_cons_self), Bool.true_or]
      have hmem : c ∈ n := by rw [hx]; simp
      rw [endsName_eq_false hname (sameName_ofList.1 hn) c hmem] at hends
      cases hends
  · exact ⟨x, hx.symm⟩

/-- The end tag has the name of the element if the name is over behind what was found. -/
theorem WrittenEnd.Proper.named {e : WrittenEnd} (he : e.Proper) {name rest : List Char}
    (hname : ∀ c ∈ name, isTagNameChar c = true)
    (h : StartsEnd (String.ofList name) (e.chars ++ rest)) :
    ∃ n c more, e.chars ++ rest = '<' :: '/' :: (n ++ c :: more) ∧
      sameName (String.ofList n) (String.ofList name) = true ∧ n <+: e.name ∧
        (sameName (String.ofList e.name) (String.ofList name) = true ↔ endsName c = true) := by
  obtain ⟨n, more, hchars, hn⟩ := h
  obtain ⟨tail, htail⟩ := he.prefix_name hname hn hchars
  have hmore : more = tail ++ (e.blanks ++ '>' :: rest) := by
    have happend : e.name ++ (e.blanks ++ '>' :: rest) = n ++ more := by
      simpa [WrittenEnd.chars] using hchars
    rw [← htail, List.append_assoc] at happend
    exact (List.append_cancel_left happend).symm
  obtain ⟨c, more', hc⟩ : ∃ c more', more = c :: more' :=
    List.exists_cons_of_ne_nil (by rw [hmore]; simp)
  refine ⟨n, c, more', hc ▸ hchars, hn, ⟨tail, htail⟩, ?_⟩
  have hlen : n.length = name.length := by
    simpa using congrArg List.length (sameName_ofList.1 hn)
  constructor
  · intro hsame
    have hlen' : e.name.length = name.length := by
      simpa using congrArg List.length (sameName_ofList.1 hsame)
    have hnil : tail = [] := by
      rw [← htail, List.length_append, hlen] at hlen'
      exact List.length_eq_zero_iff.1 (by omega)
    rw [hnil, List.nil_append, hc] at hmore
    cases hblanks : e.blanks with
    | nil =>
      rw [hblanks] at hmore
      obtain ⟨rfl, -⟩ := List.cons.inj hmore
      rfl
    | cons d blanks =>
      rw [hblanks] at hmore
      obtain ⟨rfl, -⟩ := List.cons.inj hmore
      rw [endsName, he.blanks c (by rw [hblanks]; exact List.mem_cons_self), Bool.true_or]
  · intro hends
    cases tail with
    | nil =>
      rw [List.append_nil] at htail
      rw [← htail]
      exact hn
    | cons d tail =>
      rw [hc] at hmore
      obtain ⟨rfl, -⟩ := List.cons.inj hmore
      have hd := he.name c (by rw [← htail]; simp)
      simp only [isEndNameChar, Bool.and_eq_true, Bool.not_eq_true', bne_iff_ne] at hd
      simp [endsName, hd] at hends

/-! ### Trees -/

/-- The element of a written piece with a text for its content. -/
theorem WrittenTag.raw {m : String} {tag : WrittenTag} {body front rest : List Char}
    {stop : WrittenEnd} (htag : tag.Proper) (hstop : stop.Proper)
    (hseek : seek? (endNeedle tag.name) (body ++ stop.chars) = some (body, stop.chars))
    (hm : m.toList = front ++ (tag.chars ++ (body ++ (stop.chars ++ rest)))) :
    let bodyStart := byteLength front + byteLength tag.chars
    let e := stop.node (bodyStart + byteLength body)
    ((tag.node (byteLength front)).closedBy e).Raw m (rawChildren bodyStart body) e body
      (stop.chars ++ rest) := by
  intro bodyStart e
  have hfound := seek?_endNeedle rest hseek
  have hstarts : StartsEnd (String.ofList tag.name) (stop.chars ++ rest) :=
    startsEnd_iff.2 (seek?_eq_some hfound).2
  refine ⟨rfl, ⟨front ++ tag.chars, ?_, ?_, ?_⟩, ?_, hstarts, ?_, ?_⟩
  · rw [hm, List.append_assoc]
  · exact byteLength_append _ _
  · rw [byteLength_append, byteLength_append]
    rfl
  · cases body <;> rfl
  · intro x y hxy hne hends
    have hnone := seek?_first hfound x y hxy hne
    rw [startsEnd_iff.1 hends] at hnone
    cases hnone
  · obtain ⟨n, c, more, hchars, hn, hprefix, hnamed⟩ := hstop.named htag.name hstarts
    have hname : e.name.toList = stop.name := String.toList_ofList
    exact ⟨n, c, more, hchars, hn, hname ▸ hprefix, hnamed⟩

/-- Elements among these that are to hold text do so. -/
def AllRaw (m : String) (elements : List (Tag × List Node)) : Prop :=
  ∀ x ∈ elements, isRawText x.1.name = true → x.1.selfClosing = false →
    ∃ e body back, x.1.Raw m x.2 e body back

theorem AllRaw.append {m : String} {xs ys : List (Tag × List Node)} (hx : AllRaw m xs)
    (hy : AllRaw m ys) : AllRaw m (xs ++ ys) := fun x h =>
  (List.mem_append.1 h).elim (hx x) (hy x)

theorem allRaw_nil (m : String) : AllRaw m [] := fun _ h => by cases h

mutual
theorem Written.allRaw {m : String} : ∀ (w : Written) {opened : List String} {inCase : Bool}
    {after front rest : List Char}, w.Proper opened inCase (byteLength front) after →
    m.toList = front ++ (w.chars ++ rest) → AllRaw m (w.node (byteLength front)).elements
  | .text cs, _, _, _, _, _, _, _ => by rw [Written.node, Node.elements]; exact allRaw_nil m
  | .comment cs, _, _, _, _, _, _, _ => by rw [Written.node, Node.elements]; exact allRaw_nil m
  | .single tag, _, _, _, front, _, h, _ => by
    rw [Written.Proper] at h
    rw [Written.node, Node.elements, elementsAll]
    intro x hx hraw hopen
    obtain rfl := List.mem_singleton.1 hx
    have hsingle : (tag.selfClosing || isVoid (String.ofList tag.name)) = true := h.2
    have hopen' : tag.selfClosing = false := hopen
    have hraw' : isRawText (String.ofList tag.name) = true := hraw
    rw [hopen', isVoid_eq_false_of_isRawText hraw'] at hsingle
    cases hsingle
  | .raw tag body stop, _, _, _, front, rest, h, hm => by
    rw [Written.Proper] at h
    obtain ⟨htag, -, -, hstop, hseek⟩ := h
    rw [Written.chars, List.append_assoc, List.append_assoc] at hm
    have hchildren : elementsAll (rawChildren (byteLength front + byteLength tag.chars) body) = [] := by
      rw [rawChildren]
      split <;> rfl
    rw [Written.node, Node.elements, hchildren]
    intro x hx _ _
    obtain rfl := List.mem_singleton.1 hx
    exact ⟨_, _, _, WrittenTag.raw htag hstop hseek hm⟩
  | .container tag children stop, _, _, _, front, rest, h, hm => by
    rw [Written.Proper] at h
    obtain ⟨-, -, hplain, hchildren, -⟩ := h
    rw [Written.chars, List.append_assoc, List.append_assoc] at hm
    rw [← byteLength_append] at hchildren
    have hbody : m.toList = (front ++ tag.chars) ++
        (charsAll children ++ (stopChars stop ++ rest)) := by rw [hm, List.append_assoc]
    have hinside := allRaw_nodesAll children hchildren hbody
    rw [byteLength_append] at hinside
    rw [Written.node, Node.elements]
    intro x hx hraw hopen
    rcases List.mem_cons.1 hx with rfl | hx
    · have hraw' : tag.isRaw = true := by cases stop <;> exact hraw
      rw [hplain] at hraw'
      cases hraw'
    · exact hinside x hx hraw hopen
  | .form header cases blanks, _, _, _, front, rest, h, hm => by
    rw [Written.Proper] at h
    have hbody : m.toList = (front ++ '{' :: header.chars) ++
        (casesChars cases ++ (blanks ++ '}' :: rest)) := by
      rw [hm, Written.chars]
      simp
    have hstart : byteLength front + 1 + byteLength header.chars =
        byteLength (front ++ '{' :: header.chars) := by
      rw [byteLength_append, byteLength, Nat.add_assoc]
      rfl
    rw [Written.node, Node.elements, hstart]
    exact allRaw_casesNodes cases (hstart ▸ h.2.1) hbody

theorem allRaw_nodesAll {m : String} : ∀ (ws : List Written) {opened : List String} {inCase : Bool}
    {after front rest : List Char}, ProperAll opened inCase (byteLength front) after ws →
    m.toList = front ++ (charsAll ws ++ rest) → AllRaw m (elementsAll (nodesAll (byteLength front) ws))
  | [], _, _, _, _, _, _, _ => by rw [nodesAll, elementsAll]; exact allRaw_nil m
  | w :: ws, _, _, _, front, rest, h, hm => by
    rw [ProperAll] at h
    rw [charsAll, List.append_assoc] at hm
    have hm' : m.toList = (front ++ w.chars) ++ (charsAll ws ++ rest) := by rw [hm, List.append_assoc]
    rw [nodesAll, elementsAll, ← byteLength_append]
    exact (w.allRaw h.1 hm).append (allRaw_nodesAll ws (byteLength_append front w.chars ▸ h.2.2) hm')

theorem allRaw_casesNodes {m : String} : ∀ (cs : List WrittenCase) {opened : List String}
    {after front rest : List Char}, CasesProper opened (byteLength front) after cs →
    m.toList = front ++ (casesChars cs ++ rest) →
      AllRaw m (elementsCases (casesNodes (byteLength front) cs))
  | [], _, _, _, _, _, _ => by rw [casesNodes, elementsCases]; exact allRaw_nil m
  | .mk blanks label gap children :: cs, _, _, front, rest, h, hm => by
    rw [CasesProper, WrittenCase.Proper] at h
    obtain ⟨⟨-, -, -, -, hchildren⟩, hcs⟩ := h
    have hbrace : byteLength front + byteLength blanks + byteLength label + byteLength gap + 1 =
        byteLength (front ++ (blanks ++ (label ++ (gap ++ ['{'])))) := by
      simp [byteLength, byteLength_append, Char.utf8Size, Nat.add_assoc]
    have hinside : m.toList = (front ++ (blanks ++ (label ++ (gap ++ ['{'])))) ++
        (charsAll children ++ '}' :: (casesChars cs ++ rest)) := by
      rw [hm, casesChars, WrittenCase.chars]
      simp
    have hrest : m.toList = (front ++ (WrittenCase.mk blanks label gap children).chars) ++
        (casesChars cs ++ rest) := by
      rw [hm, casesChars]
      simp
    rw [hbrace] at hchildren
    rw [← byteLength_append] at hcs
    rw [casesNodes, WrittenCase.node, elementsCases, hbrace, ← byteLength_append]
    exact (allRaw_nodesAll children hchildren hinside).append (allRaw_casesNodes cs hcs hrest)
end

/-- An element whose content is text has an end tag, and one child at most, the text of the whole
    body. Nothing in the body starts like an end tag of the element. The end tag does, but it need
    not have the name of the element: it has if the name is over behind what was looked for. -/
theorem parse_rawText {text : String} {nodes : List Node} (h : parse text = .ok nodes) :
    ∀ x ∈ elementsAll nodes, isRawText x.1.name = true → x.1.selfClosing = false →
      ∃ e body back, x.1.Raw text x.2 e body back := by
  obtain ⟨ws, hws, htext, rfl⟩ := parse_eq_ok_iff.1 h
  exact @allRaw_nodesAll text ws [] false [] [] [] hws (by rw [htext, List.nil_append, List.append_nil])

/-- What only looks like the end of the body is part of it. -/
theorem parse_rawText_lookalikes : ∃ nodes,
    parse "<p><TEXTAREA>a</texta</TextArea >b</p>" = .ok nodes ∧ ∃ x ∈ elementsAll nodes,
      x.1.name = "TEXTAREA" ∧ ∃ e body back,
        x.1.Raw "<p><TEXTAREA>a</texta</TextArea >b</p>" x.2 e body back ∧ e.name = "TextArea" := by
  have hread : ((parse "<p><TEXTAREA>a</texta</TextArea >b</p>").toOption.map fun nodes =>
      (elementsAll nodes).map fun x => (x.1.name, x.1.selfClosing, x.1.endTag.map (·.name))) =
        some [("p", false, some "p"), ("TEXTAREA", false, some "TextArea")] := by decide +kernel
  obtain ⟨nodes, hnodes, helements⟩ := Option.map_eq_some_iff.1 hread
  have hparse := eq_ok_of_toOption hnodes
  have hmem : ("TEXTAREA", false, some "TextArea") ∈ (elementsAll nodes).map
      fun x => (x.1.name, x.1.selfClosing, x.1.endTag.map (·.name)) := by
    rw [helements]
    exact List.mem_cons_of_mem _ List.mem_cons_self
  obtain ⟨x, hx, heq⟩ := List.mem_map.1 hmem
  simp only [Prod.mk.injEq] at heq
  obtain ⟨hname, hopen, hend⟩ := heq
  obtain ⟨e, body, back, hraw⟩ := parse_rawText hparse x hx (by rw [hname]; decide) hopen
  refine ⟨nodes, hparse, x, hx, hname, e, body, back, hraw, ?_⟩
  rw [hraw.endTag, Option.map_some] at hend
  exact Option.some.inj hend

/-- An end tag with a longer name ends the body although it is no end tag of the element. -/
theorem parse_script_scripts : ∃ nodes,
    parse "<script>a</scripts><script>b</script>" = .ok nodes ∧ ∃ x ∈ elementsAll nodes,
      isRawText x.1.name = true ∧ x.1.selfClosing = false ∧
        ∃ e ∈ x.1.endTag, sameName e.name x.1.name = false := by
  have hread : ((parse "<script>a</scripts><script>b</script>").toOption.map fun nodes =>
      (elementsAll nodes).map fun x => (x.1.name, x.1.selfClosing, x.1.endTag.map (·.name))) =
        some [("script", false, some "scripts"), ("script", false, some "script")] := by
    decide +kernel
  obtain ⟨nodes, hnodes, helements⟩ := Option.map_eq_some_iff.1 hread
  have hmem : ("script", false, some "scripts") ∈ (elementsAll nodes).map
      fun x => (x.1.name, x.1.selfClosing, x.1.endTag.map (·.name)) := by
    rw [helements]
    exact List.mem_cons_self
  obtain ⟨x, hx, heq⟩ := List.mem_map.1 hmem
  simp only [Prod.mk.injEq] at heq
  obtain ⟨hname, hopen, hend⟩ := heq
  obtain ⟨e, he, hlonger⟩ := Option.map_eq_some_iff.1 hend
  refine ⟨nodes, eq_ok_of_toOption hnodes, x, hx, by rw [hname]; decide, hopen, e, he, ?_⟩
  rw [hname, hlonger]
  decide

end RouterShift.Markup
