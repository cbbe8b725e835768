import RouterShift.Proofs.TypeScript.Declarations

/-! Where the insertions for the hook fall. What a class gets is inserted in its body or in the
    parameter list of one of its methods, and in no class that is declared in it (`HasPlace`); so what
    two classes get is inserted at different places (`SourceFile.pairwise_places`). What an import
    gets is inserted in its braces or before everything else, apart from all of these. -/

namespace RouterShift.TypeScript

open Grammar.Tree Text

section
variable {cs : List Char} {n c d body m list : Node} {lo hi pos p q : Nat}

/-! ### The place of a class -/

/-- The place belongs to a class: it is in its body or in a parameter list of it, and in no class that
    is declared in it. -/
structure HasPlace (c : Node) (pos : Nat) : Prop where
  site : ∃ n ∈ subtreesAmong c.children,
    (n.kind = .classBody ∨ n.kind = .formalParameters) ∧ IsSite pos n
  off : ∀ d ∈ subtreesAmong c.children, d.isClass = true → pos ≤ d.span.start ∨ d.span.stop ≤ pos

/-- A place in a child is in no class in its parent if it is in no class in the child. -/
theorem off_of_child (hn : n.Within lo hi) (hc : c ∈ n.children)
    (hpos : c.span.start < pos ∧ pos < c.span.stop)
    (hoff : ∀ d ∈ c.subtrees, d.isClass = true → pos ≤ d.span.start ∨ d.span.stop ≤ pos) :
    ∀ d ∈ subtreesAmong n.children, d.isClass = true → pos ≤ d.span.start ∨ d.span.stop ≤ pos := by
  intro d hd hclass
  obtain ⟨e, he, hd⟩ := mem_subtreesAmong.1 hd
  obtain ⟨h1, -, h3⟩ := ((hn.child he).of_mem hd).between
  rcases hn.inside.eq_or_apart hc he with rfl | hapart | hapart
  · exact hoff d hd hclass
  · exact .inl (by omega)
  · exact .inr (by omega)

/-- In a node that is no class, a place in no class in it is in no class of it. -/
theorem off_self (hclass : n.isClass = false)
    (hoff : ∀ d ∈ subtreesAmong n.children, d.isClass = true →
      pos ≤ d.span.start ∨ d.span.stop ≤ pos) :
    ∀ d ∈ n.subtrees, d.isClass = true → pos ≤ d.span.start ∨ d.span.stop ≤ pos := by
  intro d hd hd'
  rcases mem_subtrees.1 hd with rfl | hd
  · rw [hclass] at hd'
    cases hd'
  · exact hoff d hd hd'

theorem isClass_of_kind {kind : Kind} (h : n.kind = kind)
    (hkind : kind ≠ .classDeclaration ∧ kind ≠ .abstractClassDeclaration) : n.isClass = false := by
  rw [Bool.eq_false_iff, Ne, isClass_eq_true, h]
  exact not_or.2 hkind

/-- A place between the members of a class is its own. -/
theorem hasPlace_of_body (hc : c.Within lo hi) (hbody : body ∈ c.children)
    (hkind : body.kind = .classBody) (hsite : IsSite pos body) : HasPlace c pos := by
  refine ⟨⟨body, subset_subtreesAmong hbody, .inl hkind, hsite⟩, ?_⟩
  refine off_of_child hc hbody hsite.inside (off_self (isClass_of_kind hkind (by decide)) ?_)
  exact fun d hd _ => hsite.off_of_mem (hc.child hbody) hd

/-- So is a place between the parameters of a method of the class. -/
theorem hasPlace_of_list (hc : c.Within lo hi) (hbody : body ∈ c.children)
    (hkind : body.kind = .classBody) (hm : m ∈ body.children) (hmkind : m.kind = .methodDefinition)
    (hlist : list ∈ m.children) (hlkind : list.kind = .formalParameters)
    (hsite : IsSite pos list) : HasPlace c pos := by
  have hbodyw := hc.child hbody
  have hmw := hbodyw.child hm
  have hlistw := hmw.child hlist
  obtain ⟨hstart, hstop⟩ := hsite.inside
  obtain ⟨h1, -, h3⟩ := hlistw.between
  obtain ⟨h1', -, h3'⟩ := hmw.between
  have hinlist := off_self (isClass_of_kind hlkind (by decide)) fun d hd _ =>
    hsite.off_of_mem hlistw hd
  have hinm := off_self (isClass_of_kind hmkind (by decide))
    (off_of_child hmw hlist hsite.inside hinlist)
  have hinbody := off_self (isClass_of_kind hkind (by decide))
    (off_of_child hbodyw hm ⟨by omega, by omega⟩ hinm)
  refine ⟨⟨list, ?_, .inr hlkind, hsite⟩, off_of_child hc hbody ⟨by omega, by omega⟩ hinbody⟩
  exact child_mem_subtreesAmong
    (child_mem_subtreesAmong (subset_subtreesAmong hbody) hm) hlist

theorem HasPlace.inside (h : HasPlace c pos) (hc : c.Within lo hi) :
    c.span.start < pos ∧ pos < c.span.stop := by
  obtain ⟨n, hn, -, hsite⟩ := h.site
  obtain ⟨h1, -, h3⟩ := (hc.of_mem (mem_subtrees.2 (.inr hn))).between
  have hinside := hsite.inside
  omega

/-- Classes have places of their own. -/
theorem HasPlace.ne (hp : HasPlace c p) (hq : HasPlace d q) (hc : c.Within lo hi)
    (hd : d.Within lo hi) (hclass : d.isClass = true) (h : Follows c d) : p ≠ q := by
  have hpinside := hp.inside hc
  have hqinside := hq.inside hd
  -- either `d` stands behind `c`, or in it, where the place of `c` is in no other class
  rcases h with h | h
  · omega
  · rcases hp.off d h hclass with h | h <;> omega

end

/-! ### The places of a file -/

namespace SourceFile

variable [Reader] {file : SourceFile} {c d s clause names : Node} {p q pos : Nat}

theorem within_of_mem (h : Reader.Sound) {n : Node} (hn : n ∈ subtreesAmong file.nodes) :
    n.Within 0 (byteLength file.text.toList) := (file.nested h).of_mem hn

/-- The classes of a file have places of their own, whatever classes they are. -/
theorem pairwise_places (file : SourceFile) (h : Reader.Sound) :
    file.classes.Pairwise fun c d => ∀ p q, HasPlace c p → HasPlace d q → p ≠ q := by
  have hp := (file.nested h).pairwise_subtrees.filter (·.isClass)
  refine hp.imp_of_mem fun {c d} hc hd hfollows p q hp hq => ?_
  obtain ⟨hc, -⟩ := mem_classes.1 hc
  obtain ⟨hd, hclass⟩ := mem_classes.1 hd
  exact hp.ne hq (within_of_mem h hc) (within_of_mem h hd) hclass hfollows

theorem mem_parts_file {s : Node} : s ∈ file.parts ↔ s ∈ file.nodes ∧ s.isPart = true :=
  List.mem_filter

/-- A site in the braces of an import is no place of a class. -/
theorem ne_of_names (h : Reader.Sound) (hc : c ∈ file.classes) (hp : HasPlace c p)
    (hnames : names ∈ subtreesAmong file.nodes) (hkind : names.kind = .namedImports)
    (hq : IsSite q names) : p ≠ q := by
  obtain ⟨n, hn, hnkind, hsite⟩ := hp.site
  have hmem := subtreesAmong_trans (mem_classes.1 hc).1 (mem_subtrees.2 (.inr hn))
  refine hsite.ne_of_kind (file.nested h) hmem hq hnames fun heq => ?_
  rw [heq, hkind] at hnkind
  simp at hnkind

/-- A file with a class has a first statement, and every class has its place behind the beginning of
    that. -/
theorem first_of_class (h : Reader.Sound) (hc : c ∈ file.classes) : ∃ first,
    file.parts.head? = some first ∧
      ∀ c ∈ file.classes, ∀ p, HasPlace c p → first.span.start < p := by
  have hstatement {c : Node} (hc : c ∈ file.classes) : ∃ s ∈ file.parts, c ∈ s.subtrees := by
    obtain ⟨hmem, hclass⟩ := mem_classes.1 hc
    obtain ⟨s, hs, hcs⟩ := mem_subtreesAmong.1 hmem
    refine ⟨s, mem_parts_file.2 ⟨hs, ?_⟩, hcs⟩
    by_contra hpart
    obtain ⟨hleaf, hnone⟩ := isLeaf_of_not_isPart (by simpa using hpart)
    rcases mem_subtrees.1 hcs with rfl | hcs
    · rw [hnone] at hclass
      cases hclass
    · rw [(formed h (subset_subtreesAmong hs)).leaf hleaf] at hcs
      cases hcs
  obtain ⟨s, hs, -⟩ := hstatement hc
  obtain ⟨first, rest, hparts⟩ := List.exists_cons_of_ne_nil (List.ne_nil_of_mem hs)
  refine ⟨first, by rw [hparts, List.head?_cons], fun c hc p hp => ?_⟩
  obtain ⟨s, hs, hcs⟩ := hstatement hc
  have hsw := within_of_mem h (subset_subtreesAmong (mem_parts_file.1 hs).1)
  have hstart := (hsw.of_mem hcs).between.1
  have hinside := hp.inside (hsw.of_mem hcs)
  have hle : first.span.start ≤ s.span.start := by
    have hpairwise := (file.nested h).pairwise.filter (·.isPart)
    change file.parts.Pairwise _ at hpairwise
    rw [hparts] at hs hpairwise
    rcases List.mem_cons.1 hs with rfl | hs
    · exact Nat.le_refl _
    · have hfirst : first ∈ file.parts := by simp [hparts]
      have hfirst := within_of_mem h (subset_subtreesAmong (mem_parts_file.1 hfirst).1)
      exact Nat.le_trans hfirst.between.2.1 ((List.pairwise_cons.1 hpairwise).1 s hs)
  omega

end SourceFile
end RouterShift.TypeScript
