import Mathlib.Data.List.Find
import RouterShift.Proofs.TypeScript.Standing

/-! One literal of a source in the place of another. Where the new text is a literal on its own, the
    tree has it in that place, and everything else is what it was, moved by the difference in length
    (`swap`). That a source with a literal swapped is read as such a tree is a property of its reader
    (`Reader.Swaps`). Of the class declarations those around the literal and beside it are found again
    in their order, and those in it are others (`declarationsAmong_swap`). -/

namespace RouterShift.TypeScript

open Grammar Grammar.Tree Text Edit

/-! ### Trees with a node swapped -/

mutual
/-- A tree that stands further back. -/
def moved (distance : Nat) : Node → Node
  | .node label span children =>
    .node label ⟨span.start + distance, span.stop + distance⟩ (movedAmong distance children)

def movedAmong (distance : Nat) : List Node → List Node
  | [] => []
  | n :: rest => moved distance n :: movedAmong distance rest
end

/-- Where a place is once a node is as long as another one. -/
def swapPlace (t u : Node) (pos : Nat) : Nat :=
  if pos ≤ t.span.start then pos else pos - t.span.stop + (t.span.start + u.span.stop)

mutual
/-- The tree with `u`, which stands at the start of its own text, in the place of `t`. -/
def swap (t u : Node) : Node → Node
  | .node label span children =>
    if Grammar.Tree.node label span children = t then
      .node label ⟨span.start, span.start + u.span.stop⟩ (movedAmong span.start u.children)
    else
      .node label ⟨swapPlace t u span.start, swapPlace t u span.stop⟩ (swapAmong t u children)

def swapAmong (t u : Node) : List Node → List Node
  | [] => []
  | n :: rest => swap t u n :: swapAmong t u rest
end

/-- Read on its own, the text is a literal, which is the node. -/
def IsAlone [Reader] (text : String) (u : Node) : Prop :=
  ∃ nodes, Reader.read? text = some nodes ∧ u ∈ subtreesAmong nodes ∧ u.isLiteral = true ∧
    u.span = ⟨0, byteLength text.toList⟩

/-- A reader for which a literal is a literal wherever it stands: one in a source is one on its own,
    and one that is on its own can stand in the place of any other of its kind. -/
structure Reader.Swaps [Reader] : Prop where
  alone : ∀ {text : String} {nodes : List Node} {t : Node}, read? text = some nodes →
    t ∈ subtreesAmong nodes → t.isLiteral = true →
      ∃ u, IsAlone (String.ofList (t.text text.toList)) u
  swapped : ∀ {text written swapped : String} {nodes nodes' : List Node} {t u : Node},
    read? text = some nodes → t ∈ subtreesAmong nodes → t.isLiteral = true →
      IsAlone written u → u.kind = t.kind →
        swapped.toList = splice text.toList ⟨t.span, written⟩ → read? swapped = some nodes' →
          nodes' = swapAmong t u nodes

section
variable {t u n c : Node} {ns : List Node} {lo hi : Nat}

theorem swapAmong_eq : swapAmong t u ns = ns.map (swap t u) := by
  induction ns with
  | nil => rfl
  | cons n ns ih => rw [swapAmong, ih, List.map_cons]

theorem movedAmong_eq {distance : Nat} : movedAmong distance ns = ns.map (moved distance) := by
  induction ns with
  | nil => rfl
  | cons n ns ih => rw [movedAmong, ih, List.map_cons]

theorem label_swap : (swap t u n).label = n.label := by
  cases n
  rw [swap]
  split <;> rfl

theorem kind_swap : (swap t u n).kind = n.kind := congrArg Label.kind label_swap

theorem field_swap : (swap t u n).field = n.field := congrArg Label.field label_swap

theorem isPart_swap : (swap t u n).isPart = n.isPart := by
  simp only [isPart, isNamed, kind_swap]

theorem isClass_swap : (swap t u n).isClass = n.isClass := by
  simp only [isClass, kind_swap]

theorem swap_self : swap t u t =
    .node t.label ⟨t.span.start, t.span.start + u.span.stop⟩ (movedAmong t.span.start u.children) := by
  cases t
  rw [swap, if_pos rfl]
  rfl

theorem span_swap (h : n ≠ t) :
    (swap t u n).span = ⟨swapPlace t u n.span.start, swapPlace t u n.span.stop⟩ := by
  cases n
  rw [swap, if_neg h]
  rfl

theorem children_swap (h : n ≠ t) : (swap t u n).children = n.children.map (swap t u) := by
  cases n
  rw [swap, if_neg h, swapAmong_eq]
  rfl

theorem child?_swap {field : Field} (h : n ≠ t) :
    (swap t u n).child? field = (n.child? field).map (swap t u) := by
  rw [child?, children_swap h, List.find?_map]
  simp only [Function.comp_def, field_swap, child?]

theorem parts_swap (h : n ≠ t) : (swap t u n).parts = n.parts.map (swap t u) := by
  rw [parts, children_swap h, List.filter_map]
  simp only [Function.comp_def, isPart_swap, parts]

theorem part?_swap {kind : Kind} (h : n ≠ t) :
    (swap t u n).part? kind = (n.part? kind).map (swap t u) := by
  rw [part?, parts_swap h, List.find?_map]
  simp only [Function.comp_def, kind_swap, part?]

theorem partsOf_swap {kind : Kind} (h : n ≠ t) :
    (swap t u n).partsOf kind = (n.partsOf kind).map (swap t u) := by
  rw [partsOf, parts_swap h, List.filter_map]
  simp only [Function.comp_def, kind_swap, partsOf]

/-! ### Nodes outside of the one that is swapped -/

/-- The node is around another one, or apart from it. -/
def Outside (t n : Node) : Prop := t ∈ n.subtrees ∨ n.span.Apart t.span

theorem Outside.child (h : Outside t n) (hn : n.Within lo hi) (hne : n ≠ t) (hc : c ∈ n.children) :
    Outside t c := by
  rcases h with h | h
  · obtain ⟨d, hd, h⟩ := mem_subtreesAmong.1 ((mem_subtrees.1 h).resolve_left (Ne.symm hne))
    rcases hn.inside.eq_or_apart hc hd with rfl | happart
    · exact .inl h
    · exact .inr (happart.symm.inside ((hn.child hd).of_mem h).between).symm
  · exact .inr (h.inside (hn.child hc).between)

/-- A node with nothing in it is apart from every other one that it is not in. -/
theorem Outside.apart (h : Outside t n) (hleaf : n.children = []) (hne : n ≠ t) :
    n.span.Apart t.span := by
  refine h.resolve_left fun hmem => ?_
  rcases mem_subtrees.1 hmem with heq | hmem
  · exact hne heq.symm
  · rw [hleaf] at hmem
    cases hmem

/-- What is apart from a node does not have it in it. -/
theorem not_mem_subtrees_of_apart (hn : n.Within lo hi) (ht : t.span.start < t.span.stop)
    (h : n.span.Apart t.span) : t ∉ n.subtrees := by
  intro hmem
  obtain ⟨h1, h2, h3⟩ := (hn.of_mem hmem).between
  rcases h with h | h <;> omega

/-! ### Class declarations -/

/-- The decorators around the declaration in an export statement. -/
def decoratorsIn (n : Node) : List Node :=
  if n.kind = .exportStatement then n.children.filter (·.kind == .decorator) else []

theorem declarations_eq (around : List Node) (n : Node) : declarations around n =
    (if n.isClass then [⟨n, around⟩] else []) ++ declarationsAmong (decoratorsIn n) n.children := by
  cases n
  rw [declarations]
  split <;> rfl

theorem decoratorsIn_swap (h : n ≠ t) :
    decoratorsIn (swap t u n) = (decoratorsIn n).map (swap t u) := by
  rw [decoratorsIn, decoratorsIn, kind_swap, children_swap h, List.filter_map]
  simp only [Function.comp_def, kind_swap]
  split <;> rfl

def Declaration.swap (t u : Node) (d : Declaration) : Declaration :=
  ⟨TypeScript.swap t u d.node, d.around.map (TypeScript.swap t u)⟩

def Declaration.IsOutside (t : Node) (d : Declaration) : Prop :=
  Outside t d.node ∧ ∀ x ∈ d.around, Outside t x ∧ x ≠ t

/-- Without the node that is swapped, the same classes are declared. -/
theorem declarationsAmong_swap_of_forall (around : List Node)
    (h : ∀ n ∈ ns, declarations (around.map (swap t u)) (swap t u n) =
      (declarations around n).map (·.swap t u)) :
    declarationsAmong (around.map (swap t u)) (ns.map (swap t u)) =
      (declarationsAmong around ns).map (·.swap t u) := by
  induction ns with
  | nil => rfl
  | cons n ns ih =>
    obtain ⟨hn, hns⟩ := List.forall_mem_cons.1 h
    rw [List.map_cons, declarationsAmong, declarationsAmong, ih hns, isPart_swap, List.map_append]
    split
    · rw [hn]
    · rfl

theorem declarations_swap_of_not_mem {around : List Node} (h : t ∉ n.subtrees) :
    declarations (around.map (swap t u)) (swap t u n) =
      (declarations around n).map (·.swap t u) := by
  induction n using byChildren generalizing around with
  | h n ih =>
    have hne : n ≠ t := fun heq => h (heq ▸ n.self_mem_subtrees)
    have hchildren := declarationsAmong_swap_of_forall (decoratorsIn n) fun c hc =>
      ih c hc fun hmem => h (subtrees_trans (child_mem_subtrees hc) hmem)
    rw [declarations_eq, declarations_eq, isClass_swap, children_swap hne, decoratorsIn_swap hne,
      hchildren, List.map_append]
    split <;> rfl

theorem isOutside_of_apart {around : List Node} {d : Declaration} (hn : n.Within lo hi)
    (ht : t.span.start < t.span.stop) (h : n.span.Apart t.span)
    (haround : ∀ x ∈ around, Outside t x ∧ x ≠ t) (hd : d ∈ declarations around n) :
    d.IsOutside t := by
  have hinside {m : Node} (hm : m ∈ n.subtrees) : Outside t m ∧ m ≠ t := by
    refine ⟨.inr (h.inside (hn.of_mem hm).between), ?_⟩
    rintro rfl
    exact not_mem_subtrees_of_apart hn ht h hm
  obtain ⟨hnode, hd⟩ := mem_subtrees_of_declarations hd
  exact ⟨(hinside hnode).1, fun x hx => (hd x hx).elim (haround x) hinside⟩

theorem exists_of_mem_declarationsAmong {around : List Node} {d : Declaration}
    (h : d ∈ declarationsAmong around ns) : ∃ n ∈ ns, d ∈ declarations around n := by
  induction ns with
  | nil => cases h
  | cons n ns ih =>
    rw [declarationsAmong] at h
    rcases List.mem_append.1 h with h | h
    · split at h
      · exact ⟨n, List.mem_cons_self, h⟩
      · cases h
    · obtain ⟨m, hm, h⟩ := ih h
      exact ⟨m, List.mem_cons_of_mem _ hm, h⟩

/-- Only classes are declared. -/
theorem isClass_of_mem_declarations {around : List Node} {d : Declaration}
    (h : d ∈ declarations around n) : d.node.isClass = true := by
  induction n using byChildren generalizing around with
  | h n ih =>
    rw [declarations_eq] at h
    rcases List.mem_append.1 h with h | h
    · split at h
      · next hclass =>
        rw [List.mem_singleton.1 h]
        exact hclass
      · cases h
    · obtain ⟨c, hc, h⟩ := exists_of_mem_declarationsAmong h
      exact ih c hc h

theorem isLiteral_eq_true : t.isLiteral = true ↔ t.kind = .string ∨ t.kind = .templateString := by
  simp [isLiteral]

/-- A literal is a part of the tree, and no class or export. -/
theorem of_isLiteral (h : t.isLiteral = true) :
    t.isPart = true ∧ t.isClass = false ∧ decoratorsIn t = [] := by
  rcases isLiteral_eq_true.1 h with h | h <;> simp [isPart, isNamed, isClass, decoratorsIn, h]

/-- Class declarations with those in a node between others, and with those in another node there. -/
def SplitAt (t u : Node) (ds ds' : List Declaration) : Prop :=
  ∃ front back, ds = front ++ (declarationsAmong [] t.children ++ back) ∧
    ds' = front.map (·.swap t u) ++
      (declarationsAmong [] (swap t u t).children ++ back.map (·.swap t u)) ∧
    ∀ d ∈ front ++ back, d.IsOutside t

namespace SplitAt

variable {ds ds' es : List Declaration}

theorem append_right (h : SplitAt t u ds ds') (hes : ∀ d ∈ es, d.IsOutside t) :
    SplitAt t u (ds ++ es) (ds' ++ es.map (·.swap t u)) := by
  obtain ⟨front, back, rfl, rfl, houtside⟩ := h
  refine ⟨front, back ++ es, by simp, by simp, ?_⟩
  rw [← List.append_assoc]
  exact List.forall_mem_append.2 ⟨houtside, hes⟩

theorem append_left (h : SplitAt t u ds ds') (hes : ∀ d ∈ es, d.IsOutside t) :
    SplitAt t u (es ++ ds) (es.map (·.swap t u) ++ ds') := by
  obtain ⟨front, back, rfl, rfl, houtside⟩ := h
  refine ⟨es ++ front, back, by simp, by simp, ?_⟩
  rw [List.append_assoc]
  exact List.forall_mem_append.2 ⟨hes, houtside⟩

end SplitAt

theorem splitAt_among (around : List Node) (ht : t.span.start < t.span.stop)
    (hliteral : t.isLiteral = true) (hns : AmongWithin lo hi ns)
    (hleaf : ∀ n ∈ ns, n.isLeaf = true → n.children = [])
    (haround : ∀ x ∈ around, Outside t x ∧ x ≠ t)
    (h : ∀ n ∈ ns, t ∈ n.subtrees →
      SplitAt t u (declarations around n) (declarations (around.map (swap t u)) (swap t u n)))
    (hmem : t ∈ subtreesAmong ns) :
    SplitAt t u (declarationsAmong around ns)
      (declarationsAmong (around.map (swap t u)) (ns.map (swap t u))) := by
  induction ns generalizing lo with
  | nil => cases hmem
  | cons n ns ih =>
    obtain ⟨hn, hns⟩ := hns
    obtain ⟨hleaf, hleafs⟩ := List.forall_mem_cons.1 hleaf
    obtain ⟨h, hrest⟩ := List.forall_mem_cons.1 h
    rw [List.map_cons, declarationsAmong, declarationsAmong, isPart_swap]
    -- the swapped node is in the first node, then all behind it is outside, or it is further on
    by_cases hin : t ∈ n.subtrees
    · have hapart : ∀ m ∈ ns, m.span.Apart t.span := by
        intro m hm
        have htw := (hn.of_mem hin).between
        have hmw := (hns.mem hm).between
        exact .inr (Nat.le_trans htw.2.2 hmw.1)
      have hisPart : n.isPart = true := by
        by_contra hnot
        obtain ⟨hisLeaf, -⟩ := isLeaf_of_not_isPart (Bool.eq_false_iff.2 hnot)
        rcases mem_subtrees.1 hin with rfl | hin
        · exact hnot (of_isLiteral hliteral).1
        · rw [hleaf hisLeaf] at hin
          cases hin
      rw [if_pos hisPart, if_pos hisPart, declarationsAmong_swap_of_forall around fun m hm =>
        declarations_swap_of_not_mem (not_mem_subtrees_of_apart (hns.mem hm) ht (hapart m hm))]
      refine (h hin).append_right fun d hd => ?_
      obtain ⟨m, hm, hd⟩ := exists_of_mem_declarationsAmong hd
      exact isOutside_of_apart (hns.mem hm) ht (hapart m hm) haround hd
    · have hin' : t ∈ subtreesAmong ns := (List.mem_append.1 hmem).resolve_left hin
      have hapart : n.span.Apart t.span := .inl (hns.of_mem hin').between.1
      have hsplit := ih hns hleafs hrest hin'
      split
      · rw [declarations_swap_of_not_mem hin]
        exact hsplit.append_left fun d hd => isOutside_of_apart hn ht hapart haround hd
      · exact hsplit

theorem splitAt_declarations (around : List Node) (ht : t.span.start < t.span.stop)
    (hliteral : t.isLiteral = true) (hn : n.Within lo hi)
    (hleaf : ∀ m ∈ n.subtrees, m.isLeaf = true → m.children = [])
    (haround : ∀ x ∈ around, Outside t x ∧ x ≠ t) (hmem : t ∈ n.subtrees) :
    SplitAt t u (declarations around n) (declarations (around.map (swap t u)) (swap t u n)) := by
  induction n using byChildren generalizing around lo hi with
  | h n ih =>
    by_cases hne : n = t
    · subst hne
      obtain ⟨-, hclass, hnone⟩ := of_isLiteral hliteral
      have hnone' : decoratorsIn (swap n u n) = [] := by
        obtain ⟨-, -, h⟩ := of_isLiteral (t := swap n u n) (by rwa [isLiteral, kind_swap])
        exact h
      refine ⟨[], [], ?_, ?_, List.forall_mem_nil _⟩
      · simp [declarations_eq, hclass, hnone]
      · simp [declarations_eq, isClass_swap, hclass, hnone']
    · have hdecorators : ∀ x ∈ decoratorsIn n, Outside t x ∧ x ≠ t := by
        intro x hx
        rw [decoratorsIn] at hx
        split at hx
        · obtain ⟨hx, hkind⟩ := List.mem_filter.1 hx
          refine ⟨Outside.child (.inl hmem) hn hne hx, ?_⟩
          rintro rfl
          rcases isLiteral_eq_true.1 hliteral with hk | hk <;> simp [hk] at hkind
        · cases hx
      have hin := (mem_subtrees.1 hmem).resolve_left (Ne.symm hne)
      have hchildren := splitAt_among _ ht hliteral hn.inside
        (fun c hc => hleaf c (child_mem_subtrees hc)) hdecorators
        (fun c hc hin => ih c hc _ (hn.child hc)
          (fun m hm => hleaf m (subtrees_trans (child_mem_subtrees hc) hm)) hdecorators hin)
        hin (u := u)
      rw [declarations_eq, declarations_eq, isClass_swap, children_swap hne, decoratorsIn_swap hne]
      split
      · exact hchildren.append_left (List.forall_mem_singleton.2 ⟨.inl hmem, haround⟩)
      · exact hchildren

theorem splitAt_declarationsAmong (ht : t.span.start < t.span.stop) (hliteral : t.isLiteral = true)
    (hns : AmongWithin lo hi ns)
    (hleaf : ∀ m ∈ subtreesAmong ns, m.isLeaf = true → m.children = [])
    (hmem : t ∈ subtreesAmong ns) :
    SplitAt t u (declarationsAmong [] ns) (declarationsAmong [] (swapAmong t u ns)) := by
  rw [swapAmong_eq]
  refine splitAt_among [] ht hliteral hns (fun n hn => hleaf n (subset_subtreesAmong hn))
    (List.forall_mem_nil _) (fun n hn hin => ?_) hmem
  exact splitAt_declarations [] ht hliteral (hns.mem hn)
    (fun m hm => hleaf m (subtreesAmong_trans (subset_subtreesAmong hn) hm)) (List.forall_mem_nil _) hin

/-- What is found among class declarations is found again, if it is not in the node that is swapped
    and nothing like it is in the new one. -/
theorem find?_swap {ds ds' : List Declaration} {p q : Declaration → Bool} {d : Declaration}
    (h : SplitAt t u ds ds') (hpq : ∀ d ∈ ds, d.IsOutside t → q (d.swap t u) = p d)
    (hnew : ∀ d ∈ declarationsAmong [] (swap t u t).children, q d = false)
    (hd : ds.find? p = some d) (hold : d ∉ declarationsAmong [] t.children) :
    ds'.find? q = some (d.swap t u) ∧ d.IsOutside t := by
  obtain ⟨front, back, rfl, rfl, houtside⟩ := h
  obtain ⟨hfront, hback⟩ := List.forall_mem_append.1 houtside
  have hagain {es : List Declaration} (hes : ∀ d ∈ es, d.IsOutside t)
      (hmem : ∀ d ∈ es, d ∈ front ++ (declarationsAmong [] t.children ++ back)) :
      (es.map (·.swap t u)).find? q = (es.find? p).map (·.swap t u) := by
    rw [List.find?_map]
    exact congrArg _ (List.find?_congr fun d hd => hpq d (hmem d hd) (hes d hd))
  have hnone : (declarationsAmong [] (swap t u t).children).find? q = none := by
    simpa using hnew
  rw [List.find?_append, List.find?_append, hagain hfront (by simp +contextual),
    hagain hback (by simp +contextual), hnone]
  rw [List.find?_append, List.find?_append] at hd
  cases hfirst : front.find? p with
  | some x =>
    rw [hfirst] at hd
    obtain rfl : x = d := Option.some.inj hd
    exact ⟨rfl, hfront x (List.mem_of_find?_eq_some hfirst)⟩
  | none =>
    rw [hfirst] at hd
    cases hinside : (declarationsAmong [] t.children).find? p with
    | some x =>
      rw [hinside] at hd
      obtain rfl : x = d := Option.some.inj hd
      exact absurd (List.mem_of_find?_eq_some hinside) hold
    | none =>
      rw [hinside] at hd
      simp only [Option.none_or] at hd
      rw [hd]
      exact ⟨rfl, hback d (List.mem_of_find?_eq_some hd)⟩

/-! ### What is in the new node -/

section
variable {distance : Nat} {x : Node}

theorem label_moved : (moved distance n).label = n.label := by
  cases n
  rfl

theorem span_moved :
    (moved distance n).span = ⟨n.span.start + distance, n.span.stop + distance⟩ := by
  cases n
  rfl

theorem children_moved : (moved distance n).children = n.children.map (moved distance) := by
  cases n
  exact movedAmong_eq

theorem isClass_moved : (moved distance n).isClass = n.isClass := by
  simp only [isClass, kind, label_moved]

theorem child?_moved {field : Field} :
    (moved distance n).child? field = (n.child? field).map (moved distance) := by
  rw [child?, children_moved, List.find?_map]
  simp only [Function.comp_def, Tree.field, label_moved, child?]

theorem exists_of_mem_moved (h : x ∈ (moved distance n).subtrees) :
    ∃ m ∈ n.subtrees, x = moved distance m := by
  induction n using byChildren with
  | h n ih =>
    rcases mem_subtrees.1 h with rfl | h
    · exact ⟨n, n.self_mem_subtrees, rfl⟩
    · obtain ⟨c, hc, h⟩ := mem_subtreesAmong.1 h
      rw [children_moved] at hc
      obtain ⟨d, hd, rfl⟩ := List.mem_map.1 hc
      obtain ⟨m, hm, hx⟩ := ih d hd h
      exact ⟨m, subtrees_trans (child_mem_subtrees hd) hm, hx⟩

/-- The text of a node is moved with it. -/
theorem text_moved {front cs back : List Char} (hn : n.WellFormed cs)
    (h : byteLength front = distance) : (moved distance n).text (front ++ cs ++ back) = n.text cs := by
  obtain ⟨a, b, hcs, hstart, hstop⟩ := hn.parts
  refine text_eq_of_slice? (slice?_eq_some.2 ⟨front ++ a, b ++ back, ?_, ?_, ?_⟩)
  · calc
      front ++ cs ++ back = front ++ (a ++ n.text cs ++ b) ++ back := by rw [← hcs]
      _ = front ++ a ++ n.text cs ++ (b ++ back) := by simp
  · rw [span_moved, byteLength_append, h, hstart, Nat.add_comm]
  · rw [span_moved]
    simp only
    omega

end

end

end RouterShift.TypeScript
