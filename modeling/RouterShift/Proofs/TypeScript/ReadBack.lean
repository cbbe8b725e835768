import RouterShift.Proofs.TypeScript.Forms
import RouterShift.Proofs.TypeScript.Literal
import RouterShift.Proofs.TypeScript.Splice
import RouterShift.Proofs.TypeScript.Swapped

/-! Putting a template into a file and reading it back. What a literal says goes back into it
    without a change exactly when its contents have no bare delimiter. And what is put into it is
    what the template of the class says afterwards, in the same delimiters at the same place,
    exactly when that is a literal and hides no delimiter (`splice_reads_back`). -/

namespace RouterShift.TypeScript

open Grammar Grammar.Tree Text Edit

/-! ### A file with a template swapped -/

theorem findSome?_congr {α β : Type} {f g : α → Option β} {l : List α} (h : ∀ x ∈ l, f x = g x) :
    l.findSome? f = l.findSome? g := by
  induction l with
  | nil => rfl
  | cons x l ih =>
    obtain ⟨hx, hl⟩ := List.forall_mem_cons.1 h
    rw [List.findSome?_cons, List.findSome?_cons, hx, ih hl]

section
variable [Reader] {file done : SourceFile} {written className : String} {t u n : Node} {l : Literal}

/-- A file, and the file that it is with another literal in the place of a value. -/
structure SourceFile.SwapsTo (file done : SourceFile) (t u : Node) (written : String) : Prop where
  mem : t ∈ subtreesAmong file.nodes
  literal : t.isLiteral = true
  field : t.field = some .value
  length : u.span.stop = byteLength written.toList
  text : done.text.toList = splice file.text.toList ⟨t.span, written⟩
  nodes : done.nodes = swapAmong t u file.nodes

theorem start_lt_stop (h : Reader.Sound) (hn : n ∈ subtreesAmong file.nodes)
    (hliteral : n.isLiteral = true) : n.span.start < n.span.stop := by
  have hformed := SourceFile.formed h hn
  obtain ⟨d, -, -, raw, htext⟩ := hformed.literal hliteral
  obtain ⟨front, back, -, -, hstop⟩ := hformed.parts
  have hpos := byteLength_pos (List.cons_ne_nil d (raw ++ [d]))
  rw [htext] at hstop
  omega

theorem outside_child {c : Node} (h : Reader.Sound) (hn : n ∈ subtreesAmong file.nodes)
    (houtside : Outside t n) (hne : n ≠ t) (hc : c ∈ n.children) :
    Outside t c ∧ c ∈ subtreesAmong file.nodes :=
  ⟨houtside.child ((file.nested h).of_mem hn) hne hc, child_mem_subtreesAmong hn hc⟩

theorem isClass_of_mem {d : Declaration} (hd : d ∈ file.declarations) :
    d.node ∈ subtreesAmong file.nodes ∧ d.node.isClass = true := by
  obtain ⟨n, -, hn⟩ := exists_of_mem_declarationsAmong hd
  exact ⟨(mem_subtreesAmong_of_declarations hd).1, isClass_of_mem_declarations hn⟩

namespace SourceFile.SwapsTo

variable (h : Reader.Sound) (hs : file.SwapsTo done t u written)
include h hs

/-- The texts around the literal are the same. -/
theorem exists_parts : ∃ front back, file.text.toList = front ++ t.text file.text.toList ++ back ∧
    done.text.toList = front ++ written.toList ++ back ∧ byteLength front = t.span.start ∧
      t.span.start + byteLength (t.text file.text.toList) = t.span.stop := by
  obtain ⟨front, back, hcs, hstart, hstop⟩ := (formed h hs.mem).parts
  refine ⟨front, back, hcs, ?_, hstart, hstop⟩
  rw [hs.text, hcs]
  exact splice_append hstart hstop

theorem text_self : (swap t u t).text done.text.toList = written.toList := by
  obtain ⟨front, back, -, hdone, hstart, -⟩ := hs.exists_parts h
  refine text_eq_of_slice? (slice?_eq_some.2 ⟨front, back, hdone, ?_, ?_⟩)
  · rw [swap_self]
    exact hstart
  · rw [swap_self, ← hs.length]
    rfl

/-- What is apart from the literal is what it was. -/
theorem text_of_apart (hn : n ∈ subtreesAmong file.nodes) (hapart : n.span.Apart t.span) :
    (swap t u n).text done.text.toList = n.text file.text.toList := by
  have hlt := start_lt_stop h hs.mem hs.literal
  have hne : n ≠ t := by
    rintro rfl
    rcases hapart with hle | hle <;> omega
  obtain ⟨front, back, hcs, hdone, hfront, hlength⟩ := hs.exists_parts h
  obtain ⟨a, b, hcs', hstart, hstop⟩ := (formed h hn).parts
  refine text_eq_of_slice? (slice?_eq_some.2 ?_)
  rw [span_swap hne]
  simp only [swapPlace]
  rcases hapart with hle | hle
  · obtain ⟨x, rfl, hb⟩ := prefix_of_byteLength_le
      ((hcs'.symm.trans hcs).trans (List.append_assoc ..)) (by rw [byteLength_append]; omega)
    refine ⟨a, x ++ (written.toList ++ back), by rw [hdone]; simp, ?_, ?_⟩
    · rw [if_pos (by omega), hstart]
    · rw [if_pos (by omega), if_pos hle, hstop]
  · obtain ⟨x, rfl, hb⟩ := prefix_of_byteLength_le
      ((hcs.symm.trans hcs').trans (List.append_assoc ..)) (by rw [byteLength_append]; omega)
    simp only [byteLength_append] at hstart
    refine ⟨front ++ written.toList ++ x, b, by rw [hdone, hb]; simp, ?_, ?_⟩
    · rw [if_neg (by omega), hs.length, byteLength_append, byteLength_append]
      omega
    · rw [if_neg (by omega), if_neg (by omega)]
      omega

theorem text_of_leaf (hn : n ∈ subtreesAmong file.nodes) (houtside : Outside t n)
    (hleaf : n.isLeaf = true) : (swap t u n).text done.text.toList = n.text file.text.toList := by
  refine hs.text_of_apart h hn (houtside.apart ((formed h hn).leaf hleaf) ?_)
  rintro rfl
  rcases isLiteral_eq_true.1 hs.literal with hkind | hkind <;> simp [isLeaf, hkind] at hleaf

omit h in
theorem ne_of_kind (hkind : n.kind ≠ .string ∧ n.kind ≠ .templateString) : n ≠ t := by
  rintro rfl
  rcases isLiteral_eq_true.1 hs.literal with hk | hk
  · exact hkind.1 hk
  · exact hkind.2 hk

omit h in
theorem ne_of_field {field : Field} (hfield : n.field = some field) (hne : field ≠ .value) :
    n ≠ t := by
  rintro rfl
  exact hne (Option.some.inj (hfield.symm.trans hs.field))

/-- What is called is the same, and so is the object that it is called with. -/
theorem componentObject?_swap (hn : n ∈ subtreesAmong file.nodes) (houtside : Outside t n)
    (hne : n ≠ t) : componentObject? done.text.toList (swap t u n) =
      (componentObject? file.text.toList n).map (swap t u) := by
  rw [componentObject?, componentObject?, part?_swap hne]
  cases hcall : n.part? .callExpression with
  | none => rfl
  | some call =>
    obtain ⟨hcallmem, hcallkind⟩ := mem_of_part? hcall
    obtain ⟨hcallout, hcallin⟩ := outside_child h hn houtside hne (mem_parts.1 hcallmem).1
    have hcallne := hs.ne_of_kind (n := call) (by simp [hcallkind])
    simp only [Option.map_some, Option.bind_eq_bind, Option.bind_some, child?_swap hcallne]
    cases hfunction : call.child? .function with
    | none => rfl
    | some function =>
      obtain ⟨hfmem, hffield⟩ := mem_of_child? hfunction
      obtain ⟨hfout, hfin⟩ := outside_child h hcallin hcallout hcallne hfmem
      simp only [Option.map_some, Option.bind_some, kind_swap]
      by_cases hidentifier : function.kind = .identifier
      · rw [hs.text_of_leaf h hfin hfout (by simp [isLeaf, hidentifier])]
        split
        · cases harguments : call.child? .arguments with
          | none => rfl
          | some arguments =>
            have hane := hs.ne_of_field (mem_of_child? harguments).2 (by decide)
            simp only [Option.map_some, Option.bind_some, parts_swap hane, List.head?_map]
            cases arguments.parts.head? with
            | none => rfl
            | some object =>
              simp only [Option.map_some, Option.filter_some, kind_swap]
              split <;> rfl
        · rfl
      · simp [hidentifier]

theorem name_swap {d : Declaration} (hd : d ∈ file.declarations) (houtside : d.IsOutside t) :
    (d.swap t u).name done.text.toList = d.name file.text.toList := by
  obtain ⟨hmem, hclass⟩ := isClass_of_mem hd
  have hne : d.node ≠ t := hs.ne_of_kind (by
    rcases isClass_eq_true.1 hclass with hkind | hkind <;> simp [hkind])
  simp only [Declaration.name, Declaration.swap, fieldText, child?_swap hne]
  cases hname : d.node.child? .name with
  | none => rfl
  | some c =>
    have hkind := (formed h hmem).className hclass c hname
    obtain ⟨hcout, hcin⟩ := outside_child h hmem houtside.1 hne (mem_of_child? hname).1
    simp only [Option.map_some, hs.text_of_leaf h hcin hcout (by simp [isLeaf, hkind])]

theorem metadata?_swap {d : Declaration} (hd : d ∈ file.declarations) (houtside : d.IsOutside t) :
    (d.swap t u).metadata? done.text.toList = (d.metadata? file.text.toList).map (swap t u) := by
  obtain ⟨hmem, hclass⟩ := isClass_of_mem hd
  have hne : d.node ≠ t := hs.ne_of_kind (by
    rcases isClass_eq_true.1 hclass with hkind | hkind <;> simp [hkind])
  have hdecorators : (d.swap t u).decorators = d.decorators.map (swap t u) := by
    simp only [Declaration.decorators, Declaration.swap, children_swap hne, List.filter_map,
      Function.comp_def, kind_swap, List.map_append]
  rw [Declaration.metadata?, Declaration.metadata?, hdecorators, List.findSome?_map,
    List.map_findSome?]
  have houtside : ∀ x ∈ d.decorators, Outside t x ∧ x ≠ t := by
    intro x hx
    rcases List.mem_append.1 hx with hx | hx
    · obtain ⟨hx, hkind⟩ := List.mem_filter.1 hx
      rw [beq_iff_eq] at hkind
      exact ⟨(outside_child h hmem houtside.1 hne hx).1, hs.ne_of_kind (by simp [hkind])⟩
    · exact houtside.2 x hx
  exact findSome?_congr fun x hx => hs.componentObject?_swap h
    (mem_subtreesAmong_of_decorators hd hx) (houtside x hx).1 (houtside x hx).2

/-- The keys of an object are the same if the literal is the value of one of its properties. -/
theorem templatePair?_swap {object pair : Node} (hobject : object ∈ subtreesAmong file.nodes)
    (hne : object ≠ t) (hpair : pair ∈ object.children) (hvalue : t ∈ pair.children) :
    templatePair? done.text.toList (swap t u object) =
      (templatePair? file.text.toList object).map fun p => (p.1, swap t u p.2) := by
  have hwithin := (file.nested h).of_mem hobject
  have hkey {p : Node} (hp : p ∈ object.children) (hpne : p ≠ t) :
      templateKey? done.text.toList (swap t u p) = templateKey? file.text.toList p := by
    rw [templateKey?, templateKey?, child?_swap hpne]
    cases hkey : p.child? .key with
    | none => rfl
    | some key =>
      obtain ⟨hmem, hfield⟩ := mem_of_child? hkey
      have hkne : key ≠ t := hs.ne_of_field hfield (by decide)
      have happart : key.span.Apart t.span := by
        rcases hwithin.inside.eq_or_apart hp hpair with rfl | happart
        · exact ((hwithin.child hp).inside.eq_or_apart hmem hvalue).resolve_left hkne
        · exact happart.between ((hwithin.child hp).child hmem).between
            ((hwithin.child hpair).child hvalue).between
      have hin := child_mem_subtreesAmong (child_mem_subtreesAmong hobject hp) hmem
      simp only [Option.map_some, Option.bind_eq_bind, Option.bind_some, keyText, kind_swap,
        hs.text_of_apart h hin happart]
  rw [templatePair?, templatePair?, partsOf_swap hne, List.findSome?_map, List.map_findSome?]
  refine findSome?_congr fun p hp => ?_
  obtain ⟨hp, hkind⟩ := mem_partsOf.1 hp
  simp only [Function.comp_apply, hkey (mem_parts.1 hp).1 (hs.ne_of_kind (by simp [hkind])),
    Option.map_map, Function.comp_def]

/-- The literal is what was written. -/
theorem literal?_swap {d : Char} {contents : String} (hd : d ∈ Literal.delimiters)
    (hwritten : written.toList = d :: (contents.toList ++ [d])) :
    literal? done.text.toList (swap t u t) =
      some ⟨⟨t.span.start + 1, t.span.start + 1 + byteLength contents.toList⟩, d, contents⟩ := by
  obtain ⟨front, back, -, hdone, hstart, -⟩ := hs.exists_parts h
  have hsize := utf8Size_of_delimiter d hd
  have hlength : u.span.stop = 1 + (byteLength contents.toList + 1) := by
    rw [hs.length, hwritten, byteLength, byteLength_append, byteLength, byteLength, hsize]
  have hspan : (swap t u t).span = ⟨t.span.start, t.span.start + u.span.stop⟩ := by
    rw [swap_self]
    rfl
  have hcut : slice? done.text.toList (t.span.start + 1) (t.span.start + u.span.stop - 1) =
      some contents.toList := by
    refine slice?_eq_some.2 ⟨front ++ [d], d :: back, ?_, ?_, ?_⟩
    · rw [hdone, hwritten]
      simp
    · rw [byteLength_append, byteLength, byteLength, hsize, hstart]
    · omega
  have hcond : (swap t u t).isLiteral = true ∧ 2 ≤ (swap t u t).span.length := by
    refine ⟨by rw [isLiteral, kind_swap]; exact hs.literal, ?_⟩
    rw [hspan, Span.length]
    simp only
    omega
  rw [literal?, if_pos hcond, hs.text_self h, hspan]
  simp only [hwritten, hcut, Option.bind_eq_bind, Option.bind_some, List.head?_cons, Option.pure_def,
    String.ofList_toList, Option.some.injEq, Literal.mk.injEq, Span.mk.injEq, true_and, and_true]
  omega

/-- The classes in the new literal have the names that they have there on its own. -/
theorem name_of_mem_new {d : Declaration} {nodes : List Node}
    (hread : Reader.read? written = some nodes) (hu : u ∈ subtreesAmong nodes)
    (hd : d ∈ declarationsAmong [] (swap t u t).children) :
    ∃ c ∈ subtreesAmong nodes, c.isClass = true ∧
      d.name done.text.toList = String.ofList (c.fieldText written.toList .name) := by
  obtain ⟨front, back, -, hdone, hfront, -⟩ := hs.exists_parts h
  obtain ⟨n, hn, hd⟩ := exists_of_mem_declarationsAmong hd
  have hclass := isClass_of_mem_declarations hd
  have hchildren : (swap t u t).children = u.children.map (moved t.span.start) := by
    rw [swap_self, ← movedAmong_eq]
    rfl
  rw [hchildren] at hn
  obtain ⟨m, hm, rfl⟩ := List.mem_map.1 hn
  obtain ⟨c, hc, hnode⟩ := exists_of_mem_moved (mem_subtrees_of_declarations hd).1
  have hc := subtreesAmong_trans (child_mem_subtreesAmong hu hm) hc
  rw [hnode, isClass_moved] at hclass
  refine ⟨c, hc, hclass, ?_⟩
  rw [Declaration.name, hnode, fieldText, fieldText, child?_moved, hdone]
  cases hname : c.child? .name with
  | none => rfl
  | some x =>
    have hx := h.formed hread x (child_mem_subtreesAmong hc (mem_of_child? hname).1)
    simp only [Option.map_some, text_moved hx hfront]

/-- The same declarations are components of the same names. -/
theorem any_component?_swap {d : Declaration}
    (hd : d ∈ file.declarations) (houtside : d.IsOutside t) :
    ((d.swap t u).component? done.path done.text.toList).any (·.className == className) =
      (d.component? file.path file.text.toList).any (·.className == className) := by
  rw [Declaration.component?, Declaration.component?, hs.metadata?_swap h hd houtside,
    hs.name_swap h hd houtside]
  cases d.metadata? file.text.toList <;> rfl

end SourceFile.SwapsTo

/-- The first component of a name, by the declaration that it is. -/
theorem SourceFile.inlineTemplate?_eq_find? (file : SourceFile) (className : String) :
    file.inlineTemplate? className = ((file.declarations.find? fun d =>
      (d.component? file.path file.text.toList).any (·.className == className)).bind
        (·.component? file.path file.text.toList)).bind Component.inline? := by
  rw [inlineTemplate?_eq, components, List.find?_filterMap]

/-- An inline template is the value of a property of the metadata of a class. -/
structure SourceFile.HasTemplate (file : SourceFile) (className : String) (l : Literal)
    (d : Declaration) (object pair t : Node) : Prop where
  found : (file.declarations.find? fun d =>
    (d.component? file.path file.text.toList).any (·.className == className)) = some d
  metadata : d.metadata? file.text.toList = some object
  property : templatePair? file.text.toList object = some (.template, pair)
  value : pair.child? .value = some t
  literal : literal? file.text.toList t = some l

theorem SourceFile.exists_hasTemplate (hl : file.inlineTemplate? className = some l) :
    ∃ d object pair t, file.HasTemplate className l d object pair t := by
  rw [inlineTemplate?_eq_find?] at hl
  obtain ⟨c, hc, hcl⟩ := Option.bind_eq_some_iff.1 hl
  obtain ⟨d, hd, hc⟩ := Option.bind_eq_some_iff.1 hc
  obtain ⟨object, pair, t, hobject, hpair, hvalue, hliteral, -⟩ :=
    exists_value (List.mem_of_find?_eq_some hd) hc hcl
  exact ⟨d, object, pair, t, hd, hobject, hpair, hvalue, hliteral⟩

namespace SourceFile.HasTemplate

variable {d : Declaration} {object pair : Node} (ht : file.HasTemplate className l d object pair t)
include ht

theorem mem : d ∈ file.declarations := List.mem_of_find?_eq_some ht.found

theorem mem_pair : pair ∈ object.children :=
  (mem_parts.1 (mem_partsOf.1 (templatePair?_eq_some ht.property).1).1).1

/-- Wherever the class is declared, its metadata is there too. -/
theorem mem_of_declarations {ns : List Node} (hd : d ∈ declarationsAmong [] ns) :
    object ∈ subtreesAmong ns ∧ t ∈ subtreesAmong ns := by
  obtain ⟨x, hx, hobject⟩ := List.exists_of_findSome?_eq_some ht.metadata
  have hobject := subtreesAmong_trans (mem_subtreesAmong_of_decorators hd hx)
    (mem_of_componentObject? hobject)
  exact ⟨hobject, child_mem_subtreesAmong (child_mem_subtreesAmong hobject ht.mem_pair)
    (mem_of_child? ht.value).1⟩

/-- Found again, it is what was written. -/
theorem swapped (h : Reader.Sound) (hs : file.SwapsTo done t u written)
    {nodes : List Node} (hread : Reader.read? written = some nodes)
    (hu : u ∈ subtreesAmong nodes) (hnew : ∀ c ∈ subtreesAmong nodes, c.isClass = true →
      String.ofList (c.fieldText written.toList .name) ≠ className) {k : Literal}
    (hk : literal? done.text.toList (swap t u t) = some k) :
    done.inlineTemplate? className = some k := by
  have hold : d ∉ declarationsAmong [] t.children := by
    intro hd
    exact not_mem_subtrees_of_mem_children (ht.mem_of_declarations hd).2 t.self_mem_subtrees
  have hsplit : SplitAt t u file.declarations done.declarations := by
    have hsplit := splitAt_declarationsAmong (u := u) (start_lt_stop h hs.mem hs.literal) hs.literal
      (file.nested h) (fun m hm => (formed h hm).leaf) hs.mem
    rwa [← hs.nodes] at hsplit
  have hother : ∀ x ∈ declarationsAmong [] (swap t u t).children,
      (x.component? done.path done.text.toList).any (·.className == className) = false := by
    intro x hx
    obtain ⟨c, hc, hclass, hname⟩ := hs.name_of_mem_new h hread hu hx
    have hne := hnew c hc hclass
    rw [← hname] at hne
    rw [Declaration.component?]
    cases x.metadata? done.text.toList with
    | none => rfl
    | some object => simpa using hne
  -- it is the first of its name again: classes outside have kept theirs, and those in the
  -- literal have others
  obtain ⟨hfound, houtside⟩ := find?_swap hsplit
    (fun x hx hxout => hs.any_component?_swap h hx hxout) hother ht.found hold
  have hne : object ≠ t := hs.ne_of_kind (by
    obtain ⟨x, -, hx⟩ := List.exists_of_findSome?_eq_some ht.metadata
    obtain ⟨-, -, -, -, -, -, -, -, -, hkind⟩ := componentObject?_eq_some hx
    simp [hkind])
  have hpne : pair ≠ t := hs.ne_of_kind (by
    simp [(mem_partsOf.1 (templatePair?_eq_some ht.property).1).2])
  have hpair := hs.templatePair?_swap h (ht.mem_of_declarations ht.mem).1 hne ht.mem_pair
    (mem_of_child? ht.value).1
  rw [ht.property] at hpair
  rw [inlineTemplate?_eq_find?, hfound, Option.bind_some, Declaration.component?,
    hs.metadata?_swap h ht.mem houtside, ht.metadata]
  simp only [Option.map_some, Option.bind_some, templateSource?, hpair, child?_swap hpne, ht.value,
    hk, Option.bind_eq_bind, Component.inline?, Option.pure_def]

end SourceFile.HasTemplate

end

/-! ### What is written and what is read -/

namespace Literal

/-- Contents between the delimiters of the literal. -/
def quote (l : Literal) (contents : String) : String :=
  String.ofList (l.delimiter :: (contents.toList ++ [l.delimiter]))

theorem ne_backslash_of_delimiter : ∀ d ∈ delimiters, d ≠ '\\' := by
  intro d hd
  rcases eq_of_mem_delimiters hd with rfl | rfl | rfl <;> decide

/-- Contents that begin like what is written for a text, and say it, are what is written for it. -/
theorem raw_eq_escape {d : Char} (hd : d ≠ '\\') {raw text rest back : List Char}
    (h : raw ++ d :: rest = escape d text ++ d :: back) (hvalue : unescape d raw = text) :
    raw = escape d text := by
  subst hvalue
  induction raw using byEscapes with
  | nil => rfl
  | backslash => simp [unescape, escape]
  | pair c raw ih =>
    rw [unescape_pair] at h ⊢
    split at h
    · next hcd =>
      subst hcd
      rw [escape_cons hd, if_pos rfl, List.cons_append, List.cons_append, List.cons_append,
        List.cons_append, List.cons.injEq, List.cons.injEq] at h
      rw [if_pos rfl, escape_cons hd, if_pos rfl, ← ih h.2.2]
    · next hcd =>
      rw [escape_pair, List.cons_append, List.cons_append, List.cons_append, List.cons_append,
        List.cons.injEq, List.cons.injEq] at h
      rw [if_neg hcd, escape_pair, ← ih h.2.2]
  | one c raw hc ih =>
    rw [unescape_cons hc, escape_cons hc] at h
    rw [unescape_cons hc, escape_cons hc]
    split at h
    · -- a bare delimiter is written with a backslash
      exact absurd (List.cons.inj h).1 hc
    · next hcd =>
      rw [List.cons_append, List.cons_append, List.cons.injEq] at h
      rw [if_neg hcd, ← ih h.2]

end Literal

theorem toList_quote (l : Literal) (contents : String) :
    (l.quote contents).toList = l.delimiter :: (contents.toList ++ [l.delimiter]) := by
  rw [Literal.quote, String.toList_ofList]

/-- A literal of a file has its kind from its delimiter. -/
theorem kind_eq_of_delimiter {n m : Node} {cs cs' : List Char} {d : Char}
    {contents contents' : List Char} (hn : n.WellFormed cs) (hm : m.WellFormed cs')
    (hnl : n.isLiteral = true) (hml : m.isLiteral = true) (hntext : n.text cs = d :: contents)
    (hmtext : m.text cs' = d :: contents') : m.kind = n.kind := by
  obtain ⟨e, -, hkind, raw, htext⟩ := hn.literal hnl
  obtain ⟨e', -, hkind', raw', htext'⟩ := hm.literal hml
  obtain rfl : d = e := (List.cons.inj (hntext.symm.trans htext)).1
  obtain rfl : d = e' := (List.cons.inj (hmtext.symm.trans htext')).1
  rcases isLiteral_eq_true.1 hnl with hk | hk <;> rcases isLiteral_eq_true.1 hml with hk' | hk' <;>
    simp_all

theorem text_of_isAlone {text : String} {u : Node} (h : u.span = ⟨0, byteLength text.toList⟩) :
    u.text text.toList = text.toList := by
  refine text_eq_of_slice? (slice?_eq_some.2 ⟨[], [], by simp, ?_, ?_⟩) <;> rw [h]
  · rfl
  · exact Nat.zero_add _

/-! ### Putting a template into a file -/

section
variable [Reader]

/-- Read on its own, the text is a literal. -/
def StandsAlone (text : String) : Prop := ∃ u, IsAlone text u

/-- Read on its own, the text declares a class of the name. -/
def Declares (text className : String) : Prop :=
  ∃ nodes, Reader.read? text = some nodes ∧ ∃ c ∈ subtreesAmong nodes, c.isClass = true ∧
    String.ofList (c.fieldText text.toList .name) = className

/-- What is known of a file in which a template was put into the place of a literal. -/
structure PutInPlace (file done : SourceFile) (className markup : String) (l : Literal) :
    Prop where
  /-- Outside of the contents nothing is changed. -/
  outside : ∃ front back,
    file.text.toList = front ++ l.delimiter :: (l.raw.toList ++ l.delimiter :: back) ∧
    byteLength front + 1 = l.span.start ∧
    done.text.toList = front ++ l.delimiter :: ((l.write markup).toList ++ l.delimiter :: back)
  /-- At its place, in its delimiters, the template of the class says what was put into it if and
      only if what was written is a literal and hides no delimiter. -/
  template : ¬ Declares (l.quote (l.write markup)) className →
    ((∃ k, done.inlineTemplate? className = some k ∧ k.span.start = l.span.start ∧
        k.delimiter = l.delimiter ∧ k.value = markup) ↔
      StandsAlone (l.quote (l.write markup)) ∧
        Literal.hidesDelimiter l.delimiter markup.toList = false)

end

section
variable [Reader] {file done : SourceFile} {className markup : String} {l : Literal}

theorem SourceFile.readIn_of_inlineTemplate? (h : Reader.Sound)
    (hl : file.inlineTemplate? className = some l) : l.ReadIn file.text.toList := by
  obtain ⟨c, hc, hcl⟩ := exists_of_inlineTemplate? hl
  exact file.readIn h hc hcl

/-- The text of a file after a template is put into it, where the old one was cut out of it. -/
theorem SourceFile.of_spliceTemplate (h : Reader.Sound)
    (hl : file.inlineTemplate? className = some l)
    (hdone : file.spliceTemplate className markup = .ok done) :
    done.path = file.path ∧ ∃ front back,
      file.text.toList = front ++ l.delimiter :: (l.raw.toList ++ l.delimiter :: back) ∧
      byteLength front + 1 = l.span.start ∧
      done.text.toList = front ++ l.delimiter :: ((l.write markup).toList ++ l.delimiter :: back) := by
  have hread := readIn_of_inlineTemplate? h hl
  obtain ⟨front, back, hcs, hstart, hstop⟩ := hread.parts
  have hsize := utf8Size_of_delimiter _ hread.delimiter
  simp only [spliceTemplate, hl] at hdone
  split at hdone
  · next hsame =>
    cases hdone
    exact ⟨rfl, front, back, hcs, hstart, by rw [hsame, hcs]⟩
  · obtain ⟨hpath, -, htext⟩ := of_edited hdone
    refine ⟨hpath, front, back, hcs, hstart, ?_⟩
    have hfront : byteLength (front ++ [l.delimiter]) = l.span.start := by
      rw [byteLength_append, byteLength, byteLength, hsize]
      exact hstart
    have hcut : file.text.toList =
        (front ++ [l.delimiter]) ++ l.raw.toList ++ (l.delimiter :: back) := by
      rw [hcs]
      simp
    rw [htext, made_singleton, List.foldl_cons, List.foldl_nil, hcut]
    have hsplice := splice_append (b := l.delimiter :: back) (r := ⟨l.span, l.write markup⟩)
      hfront hstop
    rw [hsplice]
    simp

theorem SourceFile.HasTemplate.mem_value {d : Declaration} {object pair t : Node}
    (ht : file.HasTemplate className l d object pair t) : t ∈ subtreesAmong file.nodes :=
  (ht.mem_of_declarations ht.mem).2

/-- What is written is a literal in the place of the old one, if it stands alone. -/
theorem SourceFile.HasTemplate.exists_swapsTo {d : Declaration} {object pair t : Node}
    (ht : file.HasTemplate className l d object pair t) (h : Reader.Sound) (hswaps : Reader.Swaps)
    (hl : file.inlineTemplate? className = some l)
    (hdone : file.spliceTemplate className markup = .ok done)
    (halone : StandsAlone (l.quote (l.write markup))) :
    ∃ nodes u, Reader.read? (l.quote (l.write markup)) = some nodes ∧ u ∈ subtreesAmong nodes ∧
      file.SwapsTo done t u (l.quote (l.write markup)) := by
  obtain ⟨-, front, back, hcs, hstart, htext⟩ := of_spliceTemplate h hl hdone
  have htmem := ht.mem_value
  have htformed := formed h htmem
  obtain ⟨hliteral, -, hspan, httext⟩ := literal?_eq_some htformed ht.literal
  obtain ⟨u, nodes, hnodes, hu, huliteral, huspan⟩ := halone
  have hkind := kind_eq_of_delimiter htformed (h.formed hnodes u hu) hliteral huliteral httext
    ((text_of_isAlone huspan).trans (toList_quote ..))
  have hsplice : done.text.toList =
      splice file.text.toList ⟨t.span, l.quote (l.write markup)⟩ := by
    obtain ⟨-, -, -, -, hlength⟩ := htformed.parts
    have hfront : byteLength front = t.span.start := by
      rw [hspan] at hstart
      exact Nat.succ.inj hstart
    have hcut : file.text.toList = front ++ t.text file.text.toList ++ back := by
      rw [httext, hcs]
      simp
    have hmade := splice_append (b := back) (r := ⟨t.span, l.quote (l.write markup)⟩) hfront hlength
    rw [← hcut] at hmade
    rw [hmade, htext, toList_quote]
    simp
  refine ⟨nodes, u, hnodes, hu, ?_⟩
  exact
    { mem := htmem
      literal := hliteral
      field := (mem_of_child? ht.value).2
      length := by rw [huspan]
      text := hsplice
      nodes := hswaps.swapped file.nodes_eq htmem hliteral ⟨nodes, hnodes, hu, huliteral, huspan⟩
        hkind hsplice done.nodes_eq }

/-- Where what is written stands alone, it is found again. -/
theorem inlineTemplate?_of_standsAlone (h : Reader.Sound) (hswaps : Reader.Swaps)
    (hl : file.inlineTemplate? className = some l)
    (hdone : file.spliceTemplate className markup = .ok done)
    (halone : StandsAlone (l.quote (l.write markup)))
    (hdeclares : ¬ Declares (l.quote (l.write markup)) className) :
    ∃ k, done.inlineTemplate? className = some k ∧ k.span.start = l.span.start ∧
      k.delimiter = l.delimiter ∧ k.raw = l.write markup := by
  obtain ⟨d, object, pair, t, ht⟩ := SourceFile.exists_hasTemplate hl
  obtain ⟨nodes, u, hnodes, hu, hs⟩ := ht.exists_swapsTo h hswaps hl hdone halone
  obtain ⟨-, hread, hspan, -⟩ := literal?_eq_some (SourceFile.formed h hs.mem) ht.literal
  have hnew : ∀ c ∈ subtreesAmong nodes, c.isClass = true →
      String.ofList (c.fieldText (l.quote (l.write markup)).toList .name) ≠ className :=
    fun c hc hclass hname => hdeclares ⟨nodes, hnodes, c, hc, hclass, hname⟩
  refine ⟨_, ht.swapped h hs hnodes hu hnew (hs.literal?_swap h hread.delimiter (toList_quote ..)),
    ?_, rfl, rfl⟩
  rw [hspan]

theorem putInPlace_of_spliceTemplate (h : Reader.Sound) (hswaps : Reader.Swaps)
    (hl : file.inlineTemplate? className = some l)
    (hdone : file.spliceTemplate className markup = .ok done) :
    PutInPlace file done className markup l := by
  obtain ⟨hpath, front, back, hcs, hstart, htext⟩ := SourceFile.of_spliceTemplate h hl hdone
  refine ⟨⟨front, back, hcs, hstart, htext⟩, fun hdeclares => ⟨?_, ?_⟩⟩
  · rintro ⟨k, hk, hkstart, hdelimiter, hvalue⟩
    obtain ⟨d, object, pair, t, ht⟩ := SourceFile.exists_hasTemplate hk
    obtain ⟨hliteral, hread, -, httext⟩ :=
      literal?_eq_some (SourceFile.formed h ht.mem_value) ht.literal
    obtain ⟨front', back', hdonecs, hstart', -⟩ := hread.parts
    rw [hdelimiter] at hdonecs httext
    obtain ⟨rfl, htail⟩ := append_inj_of_byteLength (hdonecs.symm.trans htext) (by omega)
    have hescape : (l.write markup).toList = Literal.escape l.delimiter markup.toList :=
      String.toList_ofList
    have hraw : k.raw = l.write markup := by
      rw [← String.toList_inj, hescape]
      have hd := Literal.ne_backslash_of_delimiter _ (hdelimiter ▸ hread.delimiter)
      refine Literal.raw_eq_escape hd (by rw [← hescape]; exact (List.cons.inj htail).2) ?_
      rw [← hdelimiter, ← hvalue]
      simp [Literal.value]
    refine ⟨?_, ?_⟩
    · obtain ⟨u, hu⟩ := hswaps.alone done.nodes_eq ht.mem_value hliteral
      rw [httext, hraw, ← toList_quote, String.ofList_toList] at hu
      exact ⟨u, hu⟩
    · rw [← hdelimiter]
      exact (Literal.value_eq_iff (by rw [hraw, Literal.write_congr hdelimiter])).1 hvalue
  · rintro ⟨halone, hhides⟩
    obtain ⟨k, hk, hkstart, hdelimiter, hraw⟩ :=
      inlineTemplate?_of_standsAlone h hswaps hl hdone halone hdeclares
    refine ⟨k, hk, hkstart, hdelimiter, ?_⟩
    refine (Literal.value_eq_iff (by rw [hraw, Literal.write_congr hdelimiter])).2 ?_
    rw [hdelimiter]
    exact hhides

/-- Put back into its literal, what a template says changes nothing exactly when the contents have
    no bare delimiter. -/
theorem exists_spliceTemplate_value_iff (h : Reader.Sound)
    (hl : file.inlineTemplate? className = some l) :
    (∃ done, file.spliceTemplate className l.value = .ok done ∧ done.text = file.text) ↔
      Literal.hasBareDelimiter l.delimiter l.raw.toList = false := by
  have hread := SourceFile.readIn_of_inlineTemplate? h hl
  rw [← Literal.write_value_iff (Literal.ne_backslash_of_delimiter _ hread.delimiter)]
  constructor
  · rintro ⟨done, hdone, htext⟩
    obtain ⟨-, front, back, hcs, -, hdonecs⟩ := SourceFile.of_spliceTemplate h hl hdone
    rw [htext, hcs] at hdonecs
    have hraw := List.append_cancel_right (List.cons.inj (List.append_cancel_left hdonecs)).2
    exact (String.toList_inj.1 hraw).symm
  · intro hsame
    exact ⟨file, by simp only [SourceFile.spliceTemplate, hl, if_pos hsame], rfl⟩

/-- What is spliced is read back, for every reader that keeps to the grammar and reads a literal in
    the place of another one as it reads it alone. Splicing what a template says itself changes
    nothing just when each of its delimiters stands behind a backslash; and whatever is spliced is put
    in place. -/
theorem splice_reads_back (h : Reader.Sound) (hswaps : Reader.Swaps)
    (hl : file.inlineTemplate? className = some l) :
    ((∃ done, file.spliceTemplate className l.value = .ok done ∧ done.text = file.text) ↔
      Literal.hasBareDelimiter l.delimiter l.raw.toList = false) ∧
    ∀ markup done, file.spliceTemplate className markup = .ok done →
      PutInPlace file done className markup l :=
  ⟨exists_spliceTemplate_value_iff h hl, fun _ _ h' => putInPlace_of_spliceTemplate h hswaps hl h'⟩

end

/-! ### Small files -/

theorem grammarOn_swaps {texts : List String}
    (halone : ∀ p ∈ readings texts, ∀ t ∈ subtreesAmong p.2, t.isLiteral = true →
      ∃ q ∈ readings texts, q.1.toList = t.text p.1.toList ∧
        ∃ u ∈ subtreesAmong q.2, u.isLiteral = true ∧ u.span = ⟨0, byteLength q.1.toList⟩)
    (hswapped : ∀ p ∈ readings texts, ∀ t ∈ subtreesAmong p.2, t.isLiteral = true →
      ∀ q ∈ readings texts, ∀ u ∈ subtreesAmong q.2, u.isLiteral = true →
        u.span = ⟨0, byteLength q.1.toList⟩ → u.kind = t.kind → ∀ r ∈ readings texts,
          r.1.toList = splice p.1.toList ⟨t.span, q.1⟩ → r.2 = swapAmong t u p.2) :
    @Reader.Swaps (grammarOn texts) := by
  let reader := grammarOn texts
  constructor
  case alone =>
    intro text nodes t hread ht hliteral
    obtain ⟨q, hq, htext, u, hu, huliteral, hspan⟩ := halone _ (mem_readings.2 hread) t ht hliteral
    rw [← htext, String.ofList_toList]
    exact ⟨u, q.2, mem_readings.1 hq, hu, huliteral, hspan⟩
  case swapped =>
    intro text written swapped nodes nodes' t u hread ht hliteral halone hkind htext hread'
    obtain ⟨alone, hq, hu, huliteral, hspan⟩ := halone
    exact hswapped _ (mem_readings.2 hread) t ht hliteral _ (mem_readings.2 hq) u hu huliteral hspan
      hkind _ (mem_readings.2 hread') htext

/-- A component with a template between delimiters. -/
def oneTemplate (delimiter : Char) (raw : String) : String :=
  String.ofList ("@Component(\x7btemplate:".toList ++ delimiter :: (raw.toList ++
    delimiter :: "\x7d)class A\x7b\x7d".toList))

/-- A template with a substitution, alone and in a file, before and after quoting it. -/
def substitutions : List String :=
  let before := "$\x7bx\x7d"
  let after := "\\\x60$\x7bx\x7d\\\x60"
  [oneTemplate '\x60' before, oneTemplate '\x60' after, "\x60" ++ before ++ "\x60",
    "\x60" ++ after ++ "\x60"]

theorem splice_reads_back_substitution :
    let _ : Reader := grammarOn substitutions
    ∃ file done : SourceFile, file.text = oneTemplate '\x60' "$\x7bx\x7d" ∧
      (∃ same, file.spliceTemplate "A" "$\x7bx\x7d" = .ok same ∧ same.text = file.text) ∧
      file.spliceTemplate "A" "\x60$\x7bx\x7d\x60" = .ok done ∧
      ∃ k, done.inlineTemplate? "A" = some k ∧ k.delimiter = '\x60' ∧
        k.value = "\x60$\x7bx\x7d\x60" := by
  intro _
  let file := SourceFile.ofText ⟨"a.ts"⟩ (oneTemplate '\x60' "$\x7bx\x7d") (by decide +kernel)
  let done := SourceFile.ofText ⟨"a.ts"⟩ (oneTemplate '\x60' "\\\x60$\x7bx\x7d\\\x60")
    (by decide +kernel)
  have hl : file.inlineTemplate? "A" = some ⟨⟨22, 26⟩, '\x60', "$\x7bx\x7d"⟩ := by decide +kernel
  have hdone : file.spliceTemplate "A" "\x60$\x7bx\x7d\x60" = .ok done :=
    SourceFile.spliceTemplate_of hl (by decide +kernel) (by decide +kernel)
      (by decide +kernel) (by decide +kernel)
  obtain ⟨hsame, hput⟩ := splice_reads_back (grammarOn_sound substitutions)
    (grammarOn_swaps (by decide +kernel) (by decide +kernel)) hl
  refine ⟨file, done, rfl, hsame.2 (by decide +kernel), hdone, ?_⟩
  have hquote : Literal.quote ⟨⟨22, 26⟩, '\x60', "$\x7bx\x7d"⟩
      (Literal.write ⟨⟨22, 26⟩, '\x60', "$\x7bx\x7d"⟩ "\x60$\x7bx\x7d\x60") =
      "\x60\\\x60$\x7bx\x7d\\\x60\x60" := by decide +kernel
  have hdeclares : ¬ Declares "\x60\\\x60$\x7bx\x7d\\\x60\x60" "A" := by
    rintro ⟨nodes, hread, c, hc, hclass, -⟩
    have hnone : ∀ p ∈ readings substitutions, p.1 = "\x60\\\x60$\x7bx\x7d\\\x60\x60" →
        ∀ c ∈ subtreesAmong p.2, c.isClass = false := by decide +kernel
    rw [hnone _ (mem_readings.2 hread) rfl c hc] at hclass
    cases hclass
  have halone : StandsAlone "\x60\\\x60$\x7bx\x7d\\\x60\x60" := by
    have hsome : ∃ p ∈ readings substitutions, p.1 = "\x60\\\x60$\x7bx\x7d\\\x60\x60" ∧
        ∃ u ∈ subtreesAmong p.2, u.isLiteral = true ∧ u.span = ⟨0, byteLength p.1.toList⟩ := by
      decide +kernel
    obtain ⟨⟨text, nodes⟩, hp, rfl, u, hu, hliteral, hspan⟩ := hsome
    exact ⟨u, nodes, mem_readings.1 hp, hu, hliteral, hspan⟩
  rw [← hquote] at hdeclares halone
  obtain ⟨k, hk, -, hdelimiter, hvalue⟩ := ((hput _ _ hdone).template hdeclares).2
    ⟨halone, by decide +kernel⟩
  exact ⟨k, hk, hdelimiter, hvalue⟩

/-- A template that leaves no valid text is not put into the file. -/
theorem spliceTemplate_eq_error [Reader] {file : SourceFile} {className markup text : String}
    {l : Literal} (hl : file.inlineTemplate? className = some l) (hne : l.write markup ≠ l.raw)
    (haddr : Addressable file.text.toList l.span)
    (htext : splice file.text.toList ⟨l.span, l.write markup⟩ = text.toList)
    (h : Reader.read? text = none) :
    file.spliceTemplate className markup = .error (.notValid file.path) := by
  have haddrs : ∀ r ∈ [(⟨l.span, l.write markup⟩ : Replacement)],
      Addressable file.text.toList r.range := by simpa using haddr
  simp only [SourceFile.spliceTemplate, hl, if_neg hne, SourceFile.edited, List.isEmpty_cons,
    Bool.false_eq_true, if_false, applyEdits_eq haddrs]
  simp [htext, SourceFile.parse_eq_notValid h]

/-- What a template in a substitution says cannot be put back into it: its delimiters get
    backslashes, and those are no part of an expression. And where a text hides a delimiter, it is
    not what the literal says afterwards. -/
theorem splice_loses_template :
    (∃ file : SourceFile, ∃ l, file.path = ⟨"a.ts"⟩ ∧
      file.text = oneTemplate '\x60' "$\x7b\x60x\x60\x7d" ∧
      file.inlineTemplate? "A" = some l ∧
      file.spliceTemplate "A" l.value = .error (.notValid ⟨"a.ts"⟩)) ∧
    ∃ file : SourceFile, ∃ l, file.spliceTemplate "A" "it\\'s" = .ok file ∧
      file.inlineTemplate? "A" = some l ∧ l.value = "it's" := by
  let substitution := SourceFile.ofText ⟨"a.ts"⟩ (oneTemplate '\x60' "$\x7b\x60x\x60\x7d")
    (by decide +kernel)
  let apostrophe := SourceFile.ofText ⟨"a.ts"⟩ (oneTemplate '\'' "it\\'s") (by decide +kernel)
  have hsubstitution : substitution.inlineTemplate? "A" =
      some ⟨⟨22, 28⟩, '\x60', "$\x7b\x60x\x60\x7d"⟩ := by decide +kernel
  have hbroken : Reader.read? (oneTemplate '\x60' "$\x7b\\\x60x\\\x60\x7d") = none := by
    decide +kernel
  have happostrophe : apostrophe.inlineTemplate? "A" = some ⟨⟨22, 27⟩, '\'', "it\\'s"⟩ := by
    decide +kernel
  refine ⟨⟨substitution, _, rfl, rfl, hsubstitution, ?_⟩, apostrophe, _, ?_, happostrophe,
    by decide +kernel⟩
  · exact spliceTemplate_eq_error hsubstitution (by decide +kernel) (by decide +kernel)
      (by decide +kernel) hbroken
  · simp only [SourceFile.spliceTemplate, happostrophe]
    rw [if_pos (by decide +kernel)]

end RouterShift.TypeScript
