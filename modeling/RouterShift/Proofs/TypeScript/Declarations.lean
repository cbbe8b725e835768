import RouterShift.Proofs.TypeScript.Sound
import RouterShift.TypeScript.ParamsHook

/-! The classes of a source. The search for class declarations passes over tokens and comments; as
    nothing is in those, it finds all class declarations of the tree (`SourceFile.map_declarations`).
    Whatever is looked up about a class is in the tree, its component metadata included. -/

namespace RouterShift

namespace Grammar.Tree

open TypeScript

variable {n c : Node} {ns : List Node} {kind : Kind} {field : Field}

theorem mem_of_child? (h : n.child? field = some c) : c ∈ n.children ∧ c.field = some field := by
  refine ⟨List.mem_of_find?_eq_some h, ?_⟩
  simpa using List.find?_some h

theorem mem_parts : c ∈ n.parts ↔ c ∈ n.children ∧ c.isPart = true := List.mem_filter

theorem mem_partsOf : c ∈ n.partsOf kind ↔ c ∈ n.parts ∧ c.kind = kind := by
  simp [partsOf]

theorem mem_of_part? (h : n.part? kind = some c) : c ∈ n.parts ∧ c.kind = kind := by
  refine ⟨List.mem_of_find?_eq_some h, ?_⟩
  simpa using List.find?_some h

theorem isClass_eq_true : n.isClass = true ↔
    n.kind = .classDeclaration ∨ n.kind = .abstractClassDeclaration := by
  simp [isClass]

theorem isLeaf_of_not_isPart (h : n.isPart = false) : n.isLeaf = true ∧ n.isClass = false := by
  rw [isPart, isNamed] at h
  rw [isLeaf, isClass]
  cases hkind : n.kind <;> simp [hkind] at h ⊢

end Grammar.Tree

namespace TypeScript

open Grammar.Tree

mutual
theorem map_declarations {around : List Node} : ∀ {n : Node},
    (∀ u ∈ n.subtrees, u.isLeaf = true → u.children = []) →
      (declarations around n).map (·.node) = n.subtrees.filter (·.isClass)
  | .node label span children, h => by
    rw [declarations, subtrees, List.filter_cons]
    have hbelow {inside : List Node} : (declarationsAmong inside children).map (·.node) =
        (subtreesAmong children).filter (·.isClass) :=
      map_declarationsAmong fun u hu => h u (mem_subtrees.2 (.inr hu))
    split
    · rw [List.map_cons, hbelow]
    · exact hbelow

theorem map_declarationsAmong {around : List Node} : ∀ {ns : List Node},
    (∀ u ∈ subtreesAmong ns, u.isLeaf = true → u.children = []) →
      (declarationsAmong around ns).map (·.node) = (subtreesAmong ns).filter (·.isClass)
  | [], _ => rfl
  | n :: rest, h => by
    rw [subtreesAmong] at h ⊢
    obtain ⟨hn, hrest⟩ := List.forall_mem_append.1 h
    rw [declarationsAmong, List.map_append, List.filter_append, map_declarationsAmong hrest]
    split
    · rw [map_declarations hn]
    · next hpart =>
      obtain ⟨hleaf, hclass⟩ := isLeaf_of_not_isPart (by simpa using hpart)
      rw [subtrees_eq, hn n n.self_mem_subtrees hleaf]
      simp [subtreesAmong, hclass]
end

mutual
/-- A class declaration and the decorators around it are in the tree. -/
theorem mem_subtrees_of_declarations {around : List Node} {d : Declaration} : ∀ {n : Node},
    d ∈ declarations around n →
      d.node ∈ n.subtrees ∧ ∀ x ∈ d.around, x ∈ around ∨ x ∈ n.subtrees
  | .node label span children, h => by
    rw [declarations] at h
    have hbelow {inside : List Node} (hinside : ∀ x ∈ inside, x ∈ children)
        (h : d ∈ declarationsAmong inside children) :
        d.node ∈ subtreesAmong children ∧ ∀ x ∈ d.around, x ∈ subtreesAmong children := by
      obtain ⟨hnode, haround⟩ := mem_subtreesAmong_of_declarations h
      exact ⟨hnode, fun x hx => (haround x hx).elim
        (fun hx => subset_subtreesAmong (hinside x hx)) id⟩
    have hinside : ∀ x ∈ if label.kind = .exportStatement then
        children.filter (·.kind == .decorator) else [], x ∈ children := by
      intro x hx
      split at hx
      · exact (List.mem_filter.1 hx).1
      · cases hx
    simp only [mem_subtrees]
    split at h
    · rcases List.mem_cons.1 h with rfl | h
      · exact ⟨.inl rfl, fun x hx => .inl hx⟩
      · obtain ⟨hnode, haround⟩ := hbelow hinside h
        exact ⟨.inr hnode, fun x hx => .inr (.inr (haround x hx))⟩
    · obtain ⟨hnode, haround⟩ := hbelow hinside h
      exact ⟨.inr hnode, fun x hx => .inr (.inr (haround x hx))⟩

theorem mem_subtreesAmong_of_declarations {around : List Node} {d : Declaration} :
    ∀ {ns : List Node}, d ∈ declarationsAmong around ns →
      d.node ∈ subtreesAmong ns ∧ ∀ x ∈ d.around, x ∈ around ∨ x ∈ subtreesAmong ns
  | [], h => by cases h
  | n :: rest, h => by
    rw [declarationsAmong] at h
    simp only [subtreesAmong, List.mem_append]
    rcases List.mem_append.1 h with h | h
    · split at h
      · obtain ⟨hnode, haround⟩ := mem_subtrees_of_declarations h
        exact ⟨.inl hnode, fun x hx => (haround x hx).imp_right .inl⟩
      · cases h
    · obtain ⟨hnode, haround⟩ := mem_subtreesAmong_of_declarations h
      exact ⟨.inr hnode, fun x hx => (haround x hx).imp_right .inr⟩
end

theorem mem_subtreesAmong_of_decorators {ns : List Node} {d : Declaration} {x : Node}
    (h : d ∈ declarationsAmong [] ns) (hx : x ∈ d.decorators) : x ∈ subtreesAmong ns := by
  obtain ⟨hnode, haround⟩ := mem_subtreesAmong_of_declarations h
  rcases List.mem_append.1 hx with hx | hx
  · exact child_mem_subtreesAmong hnode (List.mem_filter.1 hx).1
  · exact (haround x hx).resolve_left nofun

/-! ### Metadata -/

section
variable {cs : List Char} {source : Path} {decorator object pair value : Node} {key : TemplateKey}

theorem componentObject?_eq_some (h : componentObject? cs decorator = some object) :
    ∃ call function arguments, decorator.part? .callExpression = some call ∧
      call.child? .function = some function ∧ function.kind = .identifier ∧
      function.text cs = Vocabulary.componentDecorator.toList ∧
      call.child? .arguments = some arguments ∧ arguments.parts.head? = some object ∧
      object.kind = .object := by
  obtain ⟨call, hcall, h⟩ := Option.bind_eq_some_iff.1 h
  obtain ⟨function, hfunction, h⟩ := Option.bind_eq_some_iff.1 h
  split at h
  · next hcomponent =>
    obtain ⟨arguments, harguments, h⟩ := Option.bind_eq_some_iff.1 h
    obtain ⟨hobject, hkind⟩ := Option.filter_eq_some_iff.1 h
    exact ⟨call, function, arguments, hcall, hfunction, hcomponent.1, hcomponent.2, harguments,
      hobject, by simpa using hkind⟩
  · cases h

theorem mem_of_componentObject? (h : componentObject? cs decorator = some object) :
    object ∈ decorator.subtrees := by
  obtain ⟨call, function, arguments, hcall, -, -, -, harguments, hobject, -⟩ :=
    componentObject?_eq_some h
  have hcall := child_mem_subtrees (mem_parts.1 (mem_of_part? hcall).1).1
  have harguments := child_mem_subtrees (mem_of_child? harguments).1
  have hobject := child_mem_subtrees (mem_parts.1 (List.mem_of_mem_head? hobject)).1
  exact subtrees_trans (subtrees_trans hcall harguments) hobject

theorem templatePair?_eq_some (h : templatePair? cs object = some (key, pair)) :
    pair ∈ object.partsOf .pair ∧ templateKey? cs pair = some key := by
  obtain ⟨p, hp, h⟩ := List.exists_of_findSome?_eq_some h
  obtain ⟨k, hk, heq⟩ := Option.map_eq_some_iff.1 h
  obtain ⟨rfl, rfl⟩ := Prod.mk.inj heq
  exact ⟨hp, hk⟩

/-- The literal of an inline template is the value of a property. -/
theorem templateSource?_eq_inline {l : Literal}
    (h : templateSource? source cs object = some (.inline l)) :
    ∃ pair value, templatePair? cs object = some (.template, pair) ∧
      pair.child? .value = some value ∧ literal? cs value = some l := by
  obtain ⟨⟨key, pair⟩, hpair, h⟩ := Option.bind_eq_some_iff.1 h
  obtain ⟨literal, hliteral, h⟩ := Option.bind_eq_some_iff.1 h
  obtain ⟨value, hvalue, hliteral⟩ := Option.bind_eq_some_iff.1 hliteral
  cases key with
  | template =>
    cases h
    exact ⟨pair, value, hpair, hvalue, hliteral⟩
  | templateUrl => cases h

end

namespace SourceFile

variable [Reader]

/-- All class declarations in the tree of the file. -/
def classes (file : SourceFile) : List Node :=
  (subtreesAmong file.nodes).filter (·.isClass)

variable {file : SourceFile} {c n : Node}

theorem mem_classes : c ∈ file.classes ↔ c ∈ subtreesAmong file.nodes ∧ c.isClass = true :=
  List.mem_filter

theorem nested (file : SourceFile) (h : Reader.Sound) :
    AmongWithin 0 (Text.byteLength file.text.toList) file.nodes :=
  h.nested file.nodes_eq

theorem formed (h : Reader.Sound) (hn : n ∈ subtreesAmong file.nodes) :
    n.WellFormed file.text.toList :=
  h.formed file.nodes_eq n hn

theorem map_declarations (file : SourceFile) (h : Reader.Sound) :
    file.declarations.map (·.node) = file.classes :=
  map_declarationsAmong fun _ hu => (formed h hu).leaf

end SourceFile
end TypeScript
end RouterShift
