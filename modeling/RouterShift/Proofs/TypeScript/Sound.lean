import RouterShift.Proofs.Grammar.Nesting
import RouterShift.Proofs.Text.Cut
import RouterShift.TypeScript.Tree

/-! What the trees of a sound reader look like, whatever its grammar is: nodes nest, they take up whole
    characters, literals stand between delimiters, lists between brackets, and the items of a
    parameter list between commas (`Reader.Sound`). From that, where the children of a list stand is
    known, and what the text along a token, a bracket or a literal is. -/

namespace RouterShift

open Text

/-- The signs that a literal can stand between. -/
def TypeScript.Literal.delimiters : List Char := ['\'', '"', '\x60']

namespace Grammar.Tree

open TypeScript

/-- The node is a list between two signs, where it begins and where it ends. -/
def Encloses (n : Node) (opening : String) (items : List Node) (closing : String) : Prop :=
  ∃ first last, n.children = first :: (items ++ [last]) ∧
    first.kind = .token opening ∧ first.span.start = n.span.start ∧
      last.kind = .token closing ∧ last.span.stop = n.span.stop

/-- Items with commas between them, and perhaps one behind the last. -/
def IsCommaList : List Node → Prop
  | [] => True
  | [item] => item.isPart = true
  | item :: comma :: rest =>
    item.isPart = true ∧ comma.kind = .token "," ∧ IsCommaList rest

/-- The node has nothing in it. -/
def isLeaf (n : Node) : Bool :=
  match n.kind with
  | .token _ | .comment | .identifier | .typeIdentifier => true
  | _ => false

/-- What the grammar of the language makes sure of at a node of a text. -/
structure WellFormed (cs : List Char) (n : Node) : Prop where
  /-- The node takes up whole characters. -/
  cut : ∃ part, slice? cs n.span.start n.span.stop = some part
  leaf : n.isLeaf = true → n.children = []
  token : ∀ sign, n.kind = .token sign → n.text cs = sign.toList
  literal : n.isLiteral = true → ∃ d ∈ Literal.delimiters, (n.kind = .templateString ↔ d = '\x60') ∧
    ∃ raw, n.text cs = d :: (raw ++ [d])
  className : n.isClass = true → ∀ c, n.child? .name = some c → c.kind = .typeIdentifier
  classBody : n.isClass = true → ∀ c, n.child? .body = some c → c.kind = .classBody
  body : n.kind = .classBody → ∃ items, n.Encloses "\x7b" items "\x7d"
  method : n.kind = .methodDefinition → ∃ c, n.child? .parameters = some c ∧
    c.kind = .formalParameters
  parameters : n.kind = .formalParameters → ∃ items, n.Encloses "(" items ")" ∧
    IsCommaList (items.filter (·.kind ≠ .comment))
  names : n.kind = .namedImports → ∃ items, n.Encloses "\x7b" items "\x7d"

end Grammar.Tree

namespace TypeScript

open Grammar.Tree

/-- A reader that keeps to the grammar of the language: nodes stand within their parents and behind
    each other, and each has the form that the grammar gives it. -/
structure Reader.Sound [Reader] : Prop where
  nested : ∀ {text : String} {nodes : List Node}, read? text = some nodes →
    AmongWithin 0 (byteLength text.toList) nodes
  formed : ∀ {text : String} {nodes : List Node}, read? text = some nodes →
    ∀ n ∈ subtreesAmong nodes, n.WellFormed text.toList

end TypeScript

namespace Grammar.Tree

open TypeScript

variable {cs : List Char} {n c d first last : Node} {ns items : List Node} {lo hi : Nat}
  {opening closing : String}

/-! ### The text of a node -/

theorem text_eq_of_slice? {part : List Char} (h : slice? cs n.span.start n.span.stop = some part) :
    n.text cs = part := by
  rw [text, h, Option.getD_some]

theorem WellFormed.slice?_eq (h : n.WellFormed cs) :
    slice? cs n.span.start n.span.stop = some (n.text cs) := by
  obtain ⟨part, hpart⟩ := h.cut
  rw [hpart, text_eq_of_slice? hpart]

/-- The text of a node in the text around it. -/
theorem WellFormed.parts (h : n.WellFormed cs) : ∃ front back, cs = front ++ n.text cs ++ back ∧
    byteLength front = n.span.start ∧ n.span.start + byteLength (n.text cs) = n.span.stop :=
  slice?_eq_some.1 h.slice?_eq

theorem WellFormed.length_token {sign : String} (h : n.WellFormed cs) (hkind : n.kind = .token sign) :
    n.span.stop = n.span.start + byteLength sign.toList := by
  obtain ⟨front, back, -, -, hstop⟩ := h.parts
  rw [← hstop, h.token sign hkind]

theorem eq_of_mem_delimiters {d : Char} (h : d ∈ Literal.delimiters) :
    d = '\'' ∨ d = '"' ∨ d = '\x60' := by
  simpa [Literal.delimiters] using h

theorem utf8Size_of_delimiter : ∀ d ∈ Literal.delimiters, d.utf8Size = 1 := by
  intro d hd
  rcases eq_of_mem_delimiters hd with rfl | rfl | rfl <;> decide

/-! ### Insertions between the children of a node -/

/-- The place is in the node, and in none of its children. -/
structure IsSite (pos : Nat) (n : Node) : Prop where
  inside : n.span.start < pos ∧ pos < n.span.stop
  off : ∀ c ∈ n.children, pos ≤ c.span.start ∨ c.span.stop ≤ pos

instance (pos : Nat) (n : Node) : Decidable (IsSite pos n) :=
  decidable_of_iff ((n.span.start < pos ∧ pos < n.span.stop) ∧
    ∀ c ∈ n.children, pos ≤ c.span.start ∨ c.span.stop ≤ pos)
    ⟨fun h => ⟨h.1, h.2⟩, fun h => ⟨h.1, h.2⟩⟩

/-- No node in a node has one of its sites inside. -/
theorem IsSite.off_of_mem {pos : Nat} (h : IsSite pos n) (hn : n.Within lo hi)
    (hd : d ∈ subtreesAmong n.children) : pos ≤ d.span.start ∨ d.span.stop ≤ pos := by
  obtain ⟨c, hc, hd⟩ := mem_subtreesAmong.1 hd
  obtain ⟨h1, h2, h3⟩ := ((hn.child hc).of_mem hd).between
  rcases h.off c hc with hle | hle
  · exact .inl (by omega)
  · exact .inr (by omega)

/-- Behind the opening sign of a list, and behind each of its items, something can be inserted. -/
theorem isSite_of_encloses (hn : n.Within lo hi) (hformed : ∀ c ∈ n.children, c.WellFormed cs)
    (hchildren : n.children = first :: (items ++ [last])) (hopening : first.kind = .token opening)
    (hstart : first.span.start = n.span.start) (hclosing : last.kind = .token closing)
    (hstop : last.span.stop = n.span.stop) (hne : opening ≠ "" ∧ closing ≠ "")
    (hc : c = first ∨ c ∈ items) : IsSite c.span.stop n := by
  have hlong {x : Node} {sign : String} (hx : x ∈ n.children) (hkind : x.kind = .token sign)
      (hsign : sign ≠ "") : x.span.start < x.span.stop := by
    have hpos := byteLength_pos (fun h => hsign (String.toList_eq_nil_iff.1 h) : sign.toList ≠ [])
    rw [(hformed x hx).length_token hkind]
    omega
  have hfirst : first ∈ n.children := by simp [hchildren]
  have hlast : last ∈ n.children := by simp [hchildren]
  have hmem : c ∈ n.children := by
    rcases hc with rfl | hc
    · exact hfirst
    · simp [hchildren, hc]
  have hinside := hn.inside
  have hpairwise := hinside.pairwise
  rw [hchildren, List.pairwise_cons, List.pairwise_append] at hpairwise
  obtain ⟨hbehind, -, -, hbefore⟩ := hpairwise
  have hcw := (hn.child hmem).between
  have hopen := hlong hfirst hopening hne.1
  have hclose := hlong hlast hclosing hne.2
  refine ⟨⟨?_, ?_⟩, fun d hd => ?_⟩
  · rcases hc with rfl | hc
    · omega
    · have hle := hbehind c (List.mem_append_left _ hc)
      obtain ⟨-, hordered, -⟩ := hcw
      omega
  · have hle : c.span.stop ≤ last.span.start := by
      rcases hc with rfl | hc
      · exact hbehind last (by simp)
      · exact hbefore c hc last (by simp)
    omega
  · obtain ⟨-, hordered, -⟩ := hcw
    obtain ⟨-, hordered', -⟩ := (hn.child hd).between
    rcases hinside.eq_or_apart hmem hd with rfl | happart | happart
    · exact .inr (Nat.le_refl _)
    · exact .inl happart
    · exact .inr (by omega)

/-- Sites in different nodes are different places. -/
theorem IsSite.ne_of_mem {p q : Nat} (hp : IsSite p n) (hn : n.Within lo hi) (hq : IsSite q d)
    (hd : d ∈ subtreesAmong n.children) : p ≠ q := by
  have hinside := hq.inside
  rcases hp.off_of_mem hn hd with h | h <;> omega

theorem IsSite.ne_of_apart {p q : Nat} (hp : IsSite p n) (hq : IsSite q d)
    (h : n.span.Apart d.span) : p ≠ q := by
  have hpinside := hp.inside
  have hqinside := hq.inside
  rcases h with h | h <;> omega

theorem IsSite.ne_of_kind {p q : Nat} (hns : AmongWithin lo hi ns) (hp : IsSite p n)
    (hn : n ∈ subtreesAmong ns) (hq : IsSite q d) (hd : d ∈ subtreesAmong ns)
    (hkind : n.kind ≠ d.kind) : p ≠ q := by
  have hne : n ≠ d := fun h => hkind (by rw [h])
  rcases hns.nested_or_apart hn hd with hapart | hmem | hmem
  · exact hp.ne_of_apart hq hapart
  · have hmem := (mem_subtrees.1 hmem).resolve_left hne
    exact (hq.ne_of_mem (hns.of_mem hd) hp hmem).symm
  · have hmem := (mem_subtrees.1 hmem).resolve_left hne.symm
    exact hp.ne_of_mem (hns.of_mem hn) hq hmem

end Grammar.Tree
end RouterShift
