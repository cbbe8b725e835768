import RouterShift.Proofs.TypeScript.HookInsertions

/-! What insertions for the hook do to the tree of a source. Where something is inserted the tree has
    new nodes, and everything else in it is what was there, moved by what is inserted before it
    (`Grown`). That a source with insertions is read as such a tree is a property of its reader
    (`Reader.Grows`). All texts that the migration asks for are found again then, as none of them has a
    bracket in it (`Grown.text_iff`). -/

namespace RouterShift

open Text Edit

namespace TypeScript

open Grammar.Tree

/-! ### New nodes -/

/-- The only part among nodes. -/
def onlyPart? (ns : List Node) : Option Node :=
  match ns.filter (·.isPart) with
  | [n] => some n
  | _ => none

/-- A parameter for the active route. -/
def BringsParameter (cs : List Char) (fresh : List Node) : Prop :=
  ∃ p ∈ onlyPart? fresh, p.fieldText cs .pattern = "activatedRoute".toList

/-- A constructor that takes it. -/
def BringsConstructor (cs : List Char) (fresh : List Node) : Prop :=
  ∃ m ∈ onlyPart? fresh, m.kind = .methodDefinition ∧
    m.fieldText cs .name = "constructor".toList ∧
      ∃ list ∈ m.child? .parameters, BringsParameter cs list.children

/-- The name of its type, under no other name and not as a type only. -/
def BringsName (cs : List Char) (fresh : List Node) : Prop :=
  ∃ s ∈ onlyPart? fresh, s.kind = .importSpecifier ∧
    s.fieldText cs .name = "ActivatedRoute".toList ∧ s.child? .alias = none ∧
      s.hasToken "type" = false

/-- An import of its type, not for types alone. -/
def BringsImport (cs : List Char) (fresh : List Node) : Prop :=
  ∃ s ∈ onlyPart? fresh, s.kind = .importStatement ∧
    trim isQuote (s.fieldText cs .source) = "@angular/router".toList ∧
      s.hasToken "type" = false ∧ ∃ clause ∈ s.part? .importClause,
        ∃ names ∈ clause.part? .namedImports, BringsName cs names.children

/-- What an insertion into a node brings. -/
def Brings (cs : List Char) : Kind → List Node → Prop
  | .formalParameters => BringsParameter cs
  | .classBody => BringsConstructor cs
  | .namedImports => BringsName cs
  | _ => fun fresh => fresh = []

/-! ### Grown trees -/

/-- A node of the text with the insertions is in what was inserted. -/
def isNew (rs : List Replacement) (n : Node) : Bool :=
  rs.any fun r => shiftEnd rs r.range.start ≤ n.span.start &&
    n.span.stop ≤ shiftEnd rs r.range.start + byteLength r.text.toList

def oldAmong (rs : List Replacement) (ns : List Node) : List Node := ns.filter (!isNew rs ·)

def newAmong (rs : List Replacement) (ns : List Node) : List Node := ns.filter (isNew rs ·)

/-- There is no class declaration among the nodes and in them. -/
def NoClass (ns : List Node) : Prop := ∀ c ∈ subtreesAmong ns, c.isClass = false

/-- No field names one of the nodes. -/
def NoField (ns : List Node) : Prop := ∀ n ∈ ns, n.field = none

mutual
/-- A node of a text, and what it is in the text `cs` with the insertions `rs`: moved, its children
    grown as well, and with something new in it if there was an insertion right in it. -/
def Grown (cs : List Char) (rs : List Replacement) : Node → Node → Prop
  | .node label span children, n =>
    n.label = label ∧ n.span = ⟨shift rs span.start, shiftEnd rs span.stop⟩ ∧
      GrownAmong cs rs children (oldAmong rs n.children) ∧
        NoClass (newAmong rs n.children) ∧ NoField (newAmong rs n.children) ∧
          if ∃ r ∈ rs, IsSite r.range.start (.node label span children) then
            Brings cs label.kind (newAmong rs n.children)
          else newAmong rs n.children = []

def GrownAmong (cs : List Char) (rs : List Replacement) : List Node → List Node → Prop
  | [], [] => True
  | n :: ns, n' :: ns' => Grown cs rs n n' ∧ GrownAmong cs rs ns ns'
  | _, _ => False
end

/-- An insertion in none of several nodes. -/
def IsBetween (ns : List Node) (r : Replacement) : Prop :=
  ∀ n ∈ ns, r.range.start ≤ n.span.start ∨ n.span.stop ≤ r.range.start

instance (ns : List Node) : DecidablePred (IsBetween ns) := fun r =>
  inferInstanceAs (Decidable (∀ n ∈ ns, r.range.start ≤ n.span.start ∨ n.span.stop ≤ r.range.start))

/-- All nodes of a text, and those of the text with the insertions. -/
def GrownInto (cs : List Char) (rs : List Replacement) (before after : List Node) : Prop :=
  GrownAmong cs rs before (oldAmong rs after) ∧ NoClass (newAmong rs after) ∧
    if ∃ r ∈ rs, IsBetween before r then BringsImport cs (newAmong rs after)
    else newAmong rs after = []

/-! All of this can be looked through. -/

section
variable (cs : List Char) (rs : List Replacement)

instance (fresh : List Node) : Decidable (BringsParameter cs fresh) :=
  inferInstanceAs (Decidable (∃ p ∈ onlyPart? fresh, _))

instance (fresh : List Node) : Decidable (BringsConstructor cs fresh) :=
  inferInstanceAs (Decidable (∃ m ∈ onlyPart? fresh, _ ∧ _ ∧ ∃ list ∈ m.child? .parameters, _))

instance (fresh : List Node) : Decidable (BringsName cs fresh) :=
  inferInstanceAs (Decidable (∃ s ∈ onlyPart? fresh, _ ∧ _ ∧ _ ∧ _))

instance (fresh : List Node) : Decidable (BringsImport cs fresh) :=
  inferInstanceAs (Decidable (∃ s ∈ onlyPart? fresh, _ ∧ _ ∧ _ ∧
    ∃ clause ∈ s.part? .importClause, ∃ names ∈ clause.part? .namedImports, _))

instance (kind : Kind) (fresh : List Node) : Decidable (Brings cs kind fresh) := by
  unfold Brings
  split <;> infer_instance

instance (ns : List Node) : Decidable (NoClass ns) :=
  inferInstanceAs (Decidable (∀ c ∈ subtreesAmong ns, _))

instance (ns : List Node) : Decidable (NoField ns) :=
  inferInstanceAs (Decidable (∀ n ∈ ns, _))

mutual
def decGrown : (n n' : Node) → Decidable (Grown cs rs n n')
  | .node label span children, n =>
    have := decGrownAmong children (oldAmong rs n.children)
    decidable_of_iff (n.label = label ∧ n.span = ⟨shift rs span.start, shiftEnd rs span.stop⟩ ∧
      GrownAmong cs rs children (oldAmong rs n.children) ∧
        NoClass (newAmong rs n.children) ∧ NoField (newAmong rs n.children) ∧
          if ∃ r ∈ rs, IsSite r.range.start (.node label span children) then
            Brings cs label.kind (newAmong rs n.children)
          else newAmong rs n.children = []) (by rw [Grown])

def decGrownAmong : (ns ns' : List Node) → Decidable (GrownAmong cs rs ns ns')
  | [], [] => isTrue trivial
  | [], _ :: _ => isFalse id
  | _ :: _, [] => isFalse id
  | n :: ns, n' :: ns' =>
    have := decGrown n n'
    have := decGrownAmong ns ns'
    decidable_of_iff (Grown cs rs n n' ∧ GrownAmong cs rs ns ns') (by rw [GrownAmong])
end

instance (ns ns' : List Node) : Decidable (GrownAmong cs rs ns ns') := decGrownAmong cs rs ns ns'

instance (ns ns' : List Node) : Decidable (GrownInto cs rs ns ns') := by
  unfold GrownInto
  infer_instance

end

/-! ### Readers -/

/-- The insertion is one that the node takes: one more parameter, a constructor or one more name. -/
def Takes (n : Node) (r : Replacement) : Prop :=
  n.kind = .formalParameters ∧ AddsParameter n r ∨ n.kind = .classBody ∧ AddsConstructor n r ∨
    n.kind = .namedImports ∧ AddsName n r

/-- The insertion is one for the hook: one that a node takes, or an import before the first
    statement. -/
def IsForHook (nodes : List Node) (r : Replacement) : Prop :=
  (∃ n ∈ subtreesAmong nodes, Takes n r) ∨
    ∃ first ∈ (nodes.filter (·.isPart)).head?, r =
      .insert first.span.start "import \x7b ActivatedRoute \x7d from '@angular/router';\n"

/-- A reader finds everything again in a text with insertions for the hook. -/
structure Reader.Grows [Reader] : Prop where
  grown : ∀ {text grown : String} {nodes nodes' : List Node} {rs : List Replacement},
    read? text = some nodes → read? grown = some nodes' → MadeInTurn text.toList rs →
      grown.toList = rs.foldl splice text.toList → (∀ r ∈ rs, IsForHook nodes r) →
        GrownInto grown.toList rs nodes nodes'

section
variable {cs : List Char} {rs : List Replacement} {n n' m c : Node} {ns ns' : List Node}

theorem grownAmong_iff : GrownAmong cs rs ns ns' ↔ List.Forall₂ (Grown cs rs) ns ns' := by
  induction ns generalizing ns' with
  | nil => cases ns' <;> simp [GrownAmong]
  | cons n ns ih => cases ns' <;> simp [GrownAmong, ih]

namespace Grown

theorem label (h : Grown cs rs n n') : n'.label = n.label := by
  cases n
  exact h.1

theorem kind (h : Grown cs rs n n') : n'.kind = n.kind := congrArg Label.kind h.label

theorem isPart (h : Grown cs rs n n') : n'.isPart = n.isPart := by
  simp only [Grammar.Tree.isPart, isNamed, h.kind]

theorem span (h : Grown cs rs n n') :
    n'.span.start = shift rs n.span.start ∧ n'.span.stop = shiftEnd rs n.span.stop := by
  cases n
  have hspan := h.2.1
  exact ⟨congrArg Span.start hspan, congrArg Span.stop hspan⟩

theorem children (h : Grown cs rs n n') :
    List.Forall₂ (Grown cs rs) n.children (oldAmong rs n'.children) := by
  cases n
  exact grownAmong_iff.1 h.2.2.1

theorem noClass (h : Grown cs rs n n') : NoClass (newAmong rs n'.children) := by
  cases n
  exact h.2.2.2.1

theorem noField (h : Grown cs rs n n') : NoField (newAmong rs n'.children) := by
  cases n
  exact h.2.2.2.2.1

theorem brings (h : Grown cs rs n n') (hsite : ∃ r ∈ rs, IsSite r.range.start n) :
    Brings cs n.kind (newAmong rs n'.children) := by
  cases n
  have h := h.2.2.2.2.2
  rwa [if_pos hsite] at h

theorem new_eq_nil (h : Grown cs rs n n') (hsite : ¬ ∃ r ∈ rs, IsSite r.range.start n) :
    newAmong rs n'.children = [] := by
  cases n
  have h := h.2.2.2.2.2
  rwa [if_neg hsite] at h

end Grown

theorem mem_of_mem_oldAmong (h : n ∈ oldAmong rs ns) : n ∈ ns := (List.mem_filter.1 h).1

theorem mem_of_mem_newAmong (h : n ∈ newAmong rs ns) : n ∈ ns := (List.mem_filter.1 h).1

theorem mem_old_or_new (rs : List Replacement) (h : n ∈ ns) : n ∈ oldAmong rs ns ∨ n ∈ newAmong rs ns := by
  cases hnew : isNew rs n <;> simp [oldAmong, newAmong, h, hnew]

theorem old_eq_self (h : newAmong rs ns = []) : oldAmong rs ns = ns := by
  refine List.filter_eq_self.2 fun n hn => ?_
  simpa using List.filter_eq_nil_iff.1 h n hn

/-- The signs that a node stands between into which something is inserted. -/
def IsBracketed (kind : Kind) : Prop :=
  kind = .formalParameters ∨ kind = .classBody ∨ kind = .namedImports

theorem brings_of_not_isBracketed {fresh : List Node} {kind : Kind} (hkind : ¬ IsBracketed kind)
    (h : Brings cs kind fresh) : fresh = [] := by
  unfold Brings at h
  split at h
  · exact absurd (.inl rfl) hkind
  · exact absurd (.inr (.inl rfl)) hkind
  · exact absurd (.inr (.inr rfl)) hkind
  · exact h

/-- Nothing is new in a node that is no list, body or braces. -/
theorem Grown.forall₂_children (h : Grown cs rs n n') (hkind : ¬ IsBracketed n.kind) :
    List.Forall₂ (Grown cs rs) n.children n'.children := by
  have hnew : newAmong rs n'.children = [] := by
    by_cases hsite : ∃ r ∈ rs, IsSite r.range.start n
    · exact brings_of_not_isBracketed hkind (h.brings hsite)
    · exact h.new_eq_nil hsite
  rw [← old_eq_self hnew]
  exact h.children

theorem exists_of_forall₂ {α β : Type} {R : α → β → Prop} {as : List α} {bs : List β} {b : β}
    (h : List.Forall₂ R as bs) (hb : b ∈ bs) : ∃ a ∈ as, R a b :=
  exists_of_mem_steps (List.Forall₂.flip h) hb

theorem rel_find? {α β : Type} {R : α → β → Prop} {p : α → Bool} {q : β → Bool} {as : List α}
    {bs : List β} (h : List.Forall₂ R as bs) (hpq : ∀ a b, R a b → p a = q b) :
    Option.Rel R (as.find? p) (bs.find? q) := by
  induction h with
  | nil => exact .none
  | @cons a b as bs hab _ ih =>
    rw [List.find?_cons, List.find?_cons, ← hpq a b hab]
    cases p a with
    | true => exact .some hab
    | false => exact ih

theorem exists_of_rel_some {α β : Type} {R : α → β → Prop} {x : Option α} {y : Option β} {a : α}
    (h : Option.Rel R x y) (ha : x = some a) : ∃ b, y = some b ∧ R a b := by
  subst ha
  cases h with
  | some hab => exact ⟨_, rfl, hab⟩

theorem exists_of_some_rel {α β : Type} {R : α → β → Prop} {x : Option α} {y : Option β} {b : β}
    (h : Option.Rel R x y) (hb : y = some b) : ∃ a, x = some a ∧ R a b := by
  subst hb
  cases h with
  | some hab => exact ⟨_, rfl, hab⟩

/-- Every node is found again. -/
theorem Grown.exists_grown (h : Grown cs rs n n') (hm : m ∈ n.subtrees) :
    ∃ m' ∈ n'.subtrees, Grown cs rs m m' := by
  induction n using byChildren generalizing n' with
  | h n ih =>
    rcases mem_subtrees.1 hm with rfl | hm
    · exact ⟨n', n'.self_mem_subtrees, h⟩
    · obtain ⟨c, hc, hm⟩ := mem_subtreesAmong.1 hm
      obtain ⟨c', hc', hgrown⟩ := exists_of_mem_steps h.children hc
      obtain ⟨m', hm', hgrown'⟩ := ih c hc hgrown hm
      exact ⟨m', subtrees_trans (child_mem_subtrees (mem_of_mem_oldAmong hc')) hm', hgrown'⟩

/-- No class declaration is new. -/
theorem Grown.exists_class (h : Grown cs rs n n') (hc : c ∈ n'.subtrees) (hclass : c.isClass = true) :
    ∃ d ∈ n.subtrees, Grown cs rs d c := by
  induction n using byChildren generalizing n' with
  | h n ih =>
    rcases mem_subtrees.1 hc with rfl | hc
    · exact ⟨n, n.self_mem_subtrees, h⟩
    · obtain ⟨x', hx', hc⟩ := mem_subtreesAmong.1 hc
      rcases mem_old_or_new rs hx' with hold | hnew
      · obtain ⟨x, hx, hgrown⟩ := exists_of_forall₂ h.children hold
        obtain ⟨d, hd, hgrown'⟩ := ih x hx hgrown hc
        exact ⟨d, subtrees_trans (child_mem_subtrees hx) hd, hgrown'⟩
      · rw [h.noClass c (mem_subtreesAmong.2 ⟨x', hnew, hc⟩)] at hclass
        cases hclass

/-- The text of a node in another one is a part of the text of that one. -/
theorem exists_text_of_mem {cs : List Char} {lo hi : Nat} (hn : n.Within lo hi)
    (hformed : n.WellFormed cs) (hm : m ∈ n.subtrees) (hmformed : m.WellFormed cs) :
    ∃ a b, n.text cs = a ++ m.text cs ++ b := by
  obtain ⟨front, back, hcs, hstart, hstop⟩ := hformed.parts
  obtain ⟨front', back', hcs', hstart', hstop'⟩ := hmformed.parts
  obtain ⟨h1, -, h3⟩ := (hn.of_mem hm).between
  have heq : front ++ (n.text cs ++ back) = front' ++ (m.text cs ++ back') := by
    rw [← List.append_assoc, ← hcs, ← List.append_assoc, ← hcs']
  obtain ⟨a, rfl, hrest⟩ := prefix_of_byteLength_le heq (by omega)
  rw [byteLength_append] at hstart'
  have hrest : (a ++ m.text cs) ++ back' = n.text cs ++ back := by
    rw [List.append_assoc, hrest]
  obtain ⟨b, hb, -⟩ := prefix_of_byteLength_le hrest (by rw [byteLength_append]; omega)
  exact ⟨a, b, hb⟩

theorem exists_takes_of_gets {r : Replacement} (hgets : Gets cs c (some r)) (hclass : c.isClass = true)
    (hformed : ∀ n ∈ c.subtrees, n.WellFormed cs) : ∃ n ∈ c.subtrees, Takes n r := by
  cases hgets with
  | @parameter m list _ hm hlist hnone hadds =>
    obtain ⟨-, -, -, -, -, hkind, hmem⟩ :=
      exists_body_of_parameters hformed (List.mem_of_mem_head? hm) hlist
    exact ⟨list, hmem, .inl ⟨hkind, hadds⟩⟩
  | @constructor body _ hbody hnone hbase hadds =>
    have hkind := (hformed c c.self_mem_subtrees).classBody hclass body hbody
    exact ⟨body, child_mem_subtrees (mem_of_child? hbody).1, .inr (.inl ⟨hkind, hadds⟩)⟩

end

/-! ### Files with insertions -/

section
variable [Reader] {file done : SourceFile} {rs : List Replacement} {r : Replacement}
  {n n' m c c' : Node} {field : Field}

/-- A file, and the file that it is with insertions for the hook. -/
structure SourceFile.GrowsTo (file done : SourceFile) (rs : List Replacement) : Prop where
  turn : MadeInTurn file.text.toList rs
  text : done.text.toList = rs.foldl splice file.text.toList
  forHook : ∀ r ∈ rs, IsForHook file.nodes r
  grown : GrownInto done.text.toList rs file.nodes done.nodes

/-- A node of a file, and the same node of the file with insertions. -/
structure SourceFile.Traces (file done : SourceFile) (rs : List Replacement) (n n' : Node) : Prop where
  mem : n ∈ subtreesAmong file.nodes
  found : n' ∈ subtreesAmong done.nodes
  grown : Grown done.text.toList rs n n'

theorem Takes.isSite (h : Reader.Sound) (hn : n ∈ subtreesAmong file.nodes) (htakes : Takes n r) :
    IsBracketed n.kind ∧ IsSite r.range.start n := by
  have hwithin := SourceFile.within_of_mem h hn
  have hformed := SourceFile.formed h hn
  have hchildren : ∀ c ∈ n.children, c.WellFormed file.text.toList := fun c hc =>
    SourceFile.formed h (child_mem_subtreesAmong hn hc)
  rcases htakes with ⟨hkind, hadds⟩ | ⟨hkind, hadds⟩ | ⟨hkind, hadds⟩
  · exact ⟨.inl hkind, (hadds.insertsAt hwithin hkind hformed hchildren).2⟩
  · exact ⟨.inr (.inl hkind), (hadds.insertsAt hwithin hkind hformed hchildren).2⟩
  · exact ⟨.inr (.inr hkind), (hadds.insertsAt hwithin hkind hformed hchildren).2⟩

/-- In front of a statement no node is cut. -/
theorem isBetween_before (h : Reader.Sound) (hn : n ∈ file.nodes) (text : String) :
    IsBetween file.nodes (.insert n.span.start text) := by
  intro m hm
  have hordered := (SourceFile.within_of_mem h (subset_subtreesAmong hn)).between.2.1
  rcases (file.nested h).eq_or_apart hn hm with rfl | hapart | hapart
  · exact .inl (Nat.le_refl _)
  · exact .inl (Nat.le_trans hordered hapart)
  · exact .inr hapart

/-- What is inserted for the hook falls between the signs of a node, or between all nodes. -/
theorem IsForHook.site (h : Reader.Sound) (hr : IsForHook file.nodes r) :
    (∃ n ∈ subtreesAmong file.nodes, IsBracketed n.kind ∧ IsSite r.range.start n) ∨
      IsBetween file.nodes r := by
  rcases hr with ⟨n, hn, htakes⟩ | ⟨first, hfirst, rfl⟩
  · exact .inl ⟨n, hn, htakes.isSite h hn⟩
  · exact .inr (isBetween_before h (List.mem_filter.1 (List.mem_of_mem_head? hfirst)).1 _)

/-- What is between all nodes is in none of them. -/
theorem IsBetween.off (h : Reader.Sound) (hr : IsBetween file.nodes r)
    (hn : n ∈ subtreesAmong file.nodes) :
    r.range.start ≤ n.span.start ∨ n.span.stop ≤ r.range.start := by
  obtain ⟨t, ht, hn⟩ := mem_subtreesAmong.1 hn
  obtain ⟨h1, h2, h3⟩ := ((SourceFile.within_of_mem h (subset_subtreesAmong ht)).of_mem hn).between
  rcases hr t ht with hle | hle
  · exact .inl (Nat.le_trans hle h1)
  · exact .inr (Nat.le_trans h3 hle)

/-! ### The text of a node that is found again -/

/-- The text has one of the signs in it that begin what something is inserted into. -/
def HasBracket (cs : List Char) : Prop := '(' ∈ cs ∨ '\x7b' ∈ cs

instance (cs : List Char) : Decidable (HasBracket cs) := inferInstanceAs (Decidable (_ ∨ _))

/-- A node that something is inserted into begins with such a sign. -/
theorem hasBracket_of_mem (h : Reader.Sound) (hn : n ∈ subtreesAmong file.nodes)
    (hm : m ∈ n.subtrees) (hkind : IsBracketed m.kind) : HasBracket (n.text file.text.toList) := by
  have hmem := subtreesAmong_trans hn hm
  have hbegins {opening closing : String} {items : List Node}
      (hencloses : m.Encloses opening items closing) :
      ∃ a b, n.text file.text.toList = a ++ opening.toList ++ b := by
    obtain ⟨first, last, hchildren, hopening, -⟩ := hencloses
    have hfirst : first ∈ m.children := by simp [hchildren]
    have hformed := SourceFile.formed h (child_mem_subtreesAmong hmem hfirst)
    rw [← hformed.token opening hopening]
    exact exists_text_of_mem (SourceFile.within_of_mem h hn) (SourceFile.formed h hn)
      (subtrees_trans hm (child_mem_subtrees hfirst)) hformed
  have hformed := SourceFile.formed h hmem
  rcases hkind with hkind | hkind | hkind
  · obtain ⟨items, hencloses, -⟩ := hformed.parameters hkind
    obtain ⟨a, b, htext⟩ := hbegins hencloses
    exact .inl (by simp [htext])
  · obtain ⟨items, hencloses⟩ := hformed.body hkind
    obtain ⟨a, b, htext⟩ := hbegins hencloses
    exact .inr (by simp [htext])
  · obtain ⟨items, hencloses⟩ := hformed.names hkind
    obtain ⟨a, b, htext⟩ := hbegins hencloses
    exact .inr (by simp [htext])

namespace SourceFile

/-- A node that nothing is inserted into has the text that it had. -/
theorem Traces.text_eq (ht : file.Traces done rs n n') (h : Reader.Sound)
    (hg : file.GrowsTo done rs)
    (hout : ∀ r ∈ rs, r.range.start ≤ n.span.start ∨ n.span.stop ≤ r.range.start) :
    n'.text done.text.toList = n.text file.text.toList := by
  obtain ⟨front, back, hcs, hstart, hstop⟩ := (formed h ht.mem).parts
  obtain ⟨front', back', hcs', hstart', hstop'⟩ := (formed h ht.found).parts
  obtain ⟨hfrom, hto⟩ := ht.grown.span
  have hlength : byteLength (n'.text done.text.toList) = byteLength (n.text file.text.toList) := by
    by_cases hempty : n.span.start = n.span.stop
    · have hle := shiftEnd_le_shift rs n.span.stop
      rw [hempty] at hfrom
      omega
    · have hsame : rs.filter (·.range.start < n.span.stop) =
          rs.filter (·.range.start ≤ n.span.start) := by
        refine List.filter_congr fun r hr => ?_
        have hout := hout r hr
        simp only [decide_eq_decide]
        omega
      rw [shift] at hfrom
      rw [shiftEnd, hsame] at hto
      omega
  obtain ⟨a, b, hfold, ha⟩ := foldl_splice_kept hg.turn hcs fun r hr => by
    rw [hstart, hstop]
    exact hout r hr
  rw [← hg.text] at hfold
  rw [hstart, ← hfrom, ← hstart'] at ha
  rw [hcs', List.append_assoc, List.append_assoc] at hfold
  obtain ⟨-, hrest⟩ := append_inj_of_byteLength hfold ha.symm
  exact (append_inj_of_byteLength hrest hlength).1

/-- What is asked about the text of a node is answered as before, if it is about no text with a
    bracket in it: something is inserted only into nodes that have one. -/
theorem Traces.text_iff (ht : file.Traces done rs n n') (h : Reader.Sound)
    (hg : file.GrowsTo done rs) {P : List Char → Prop} (hP : ∀ cs, P cs → ¬ HasBracket cs) :
    P (n'.text done.text.toList) ↔ P (n.text file.text.toList) := by
  by_cases hin : ∃ r ∈ rs, n.span.start < r.range.start ∧ r.range.start < n.span.stop
  · obtain ⟨r, hr, hlo, hhi⟩ := hin
    rcases (hg.forHook r hr).site h with ⟨m, hm, hkind, hsite⟩ | hbetween
    · have hmem : m ∈ n.subtrees := by
        have hinside := hsite.inside
        rcases (file.nested h).nested_or_apart ht.mem hm with hapart | hmem | hmem
        · rcases hapart with hapart | hapart <;> omega
        · rcases mem_subtrees.1 hmem with rfl | hmem
          · exact n.self_mem_subtrees
          · rcases hsite.off_of_mem (within_of_mem h hm) hmem with hle | hle <;> omega
        · exact hmem
      obtain ⟨m', hm', hgrown⟩ := ht.grown.exists_grown hmem
      have hbefore := hasBracket_of_mem h ht.mem hmem hkind
      have hafter := hasBracket_of_mem h ht.found hm' (hgrown.kind ▸ hkind)
      exact ⟨fun hp => absurd hafter (hP _ hp), fun hp => absurd hbefore (hP _ hp)⟩
    · rcases hbetween.off h ht.mem with hle | hle <;> omega
  · rw [ht.text_eq h hg fun r hr => ?_]
    by_contra hno
    exact hin ⟨r, hr, by omega, by omega⟩

/-! ### What is looked up in a node that is found again -/

theorem traces_of_grown {ns ns' : List Node} (hg : List.Forall₂ (Grown done.text.toList rs) ns ns')
    (hns : ∀ n ∈ ns, n ∈ subtreesAmong file.nodes) (hns' : ∀ n ∈ ns', n ∈ subtreesAmong done.nodes) :
    List.Forall₂ (file.Traces done rs) ns ns' := by
  induction hg with
  | nil => exact .nil
  | cons hgrown _ ih =>
    obtain ⟨hn, hns⟩ := List.forall_mem_cons.1 hns
    obtain ⟨hn', hns'⟩ := List.forall_mem_cons.1 hns'
    exact .cons ⟨hn, hn', hgrown⟩ (ih hns hns')

theorem GrowsTo.forall₂ (hg : file.GrowsTo done rs) :
    List.Forall₂ (file.Traces done rs) file.nodes (oldAmong rs done.nodes) :=
  traces_of_grown (grownAmong_iff.1 hg.grown.1) (fun _ hn => subset_subtreesAmong hn)
    fun _ hn => subset_subtreesAmong (mem_of_mem_oldAmong hn)

/-- The class declarations of a file with insertions are those that it had. -/
theorem GrowsTo.exists_class (hg : file.GrowsTo done rs) (hc : c ∈ done.classes) :
    ∃ d ∈ file.classes, file.Traces done rs d c := by
  obtain ⟨hmem, hclass⟩ := mem_classes.1 hc
  obtain ⟨t', ht', hc⟩ := mem_subtreesAmong.1 hmem
  rcases mem_old_or_new rs ht' with hold | hnew
  · obtain ⟨t, ht, hgrown⟩ := exists_of_forall₂ (grownAmong_iff.1 hg.grown.1) hold
    obtain ⟨d, hd, hgrown⟩ := hgrown.exists_class hc hclass
    have hdmem := mem_subtreesAmong.2 ⟨t, ht, hd⟩
    have hdclass : d.isClass = true := by
      rw [isClass, ← hgrown.kind]
      exact hclass
    exact ⟨d, mem_classes.2 ⟨hdmem, hdclass⟩, hdmem, hmem, hgrown⟩
  · rw [hg.grown.2.1 c (mem_subtreesAmong.2 ⟨t', hnew, hc⟩)] at hclass
    cases hclass

namespace Traces

variable (ht : file.Traces done rs n n')
include ht

theorem forall₂_old : List.Forall₂ (file.Traces done rs) n.children (oldAmong rs n'.children) :=
  traces_of_grown ht.grown.children (fun _ hc => child_mem_subtreesAmong ht.mem hc)
    fun _ hc => child_mem_subtreesAmong ht.found (mem_of_mem_oldAmong hc)

theorem rel_child? (field : Field) :
    Option.Rel (file.Traces done rs) (n.child? field) (n'.child? field) := by
  -- a field names no new node
  have hold : n'.child? field = (oldAmong rs n'.children).find? (·.field == some field) := by
    rw [child?, oldAmong, List.find?_filter, ← List.head?_filter, ← List.head?_filter]
    refine congrArg List.head? (List.filter_congr fun c hc => ?_)
    cases hnew : isNew rs c with
    | false => simp [beq_eq_decide]
    | true =>
      have hnone := ht.grown.noField c (List.mem_filter.2 ⟨hc, hnew⟩)
      simp [hnone]
  rw [hold]
  exact rel_find? ht.forall₂_old fun c c' hc => by
    rw [Grammar.Tree.field, Grammar.Tree.field, hc.grown.label]

theorem exists_child? (hc : n.child? field = some c) :
    ∃ c', n'.child? field = some c' ∧ file.Traces done rs c c' :=
  exists_of_rel_some (ht.rel_child? field) hc

theorem of_child? (hc : n'.child? field = some c') :
    ∃ c, n.child? field = some c ∧ file.Traces done rs c c' :=
  exists_of_some_rel (ht.rel_child? field) hc

theorem fieldText_iff (h : Reader.Sound) (hg : file.GrowsTo done rs) {P : List Char → Prop}
    (hP : ∀ cs, P cs → ¬ HasBracket cs) (field : Field) :
    P (n'.fieldText done.text.toList field) ↔ P (n.fieldText file.text.toList field) := by
  rw [fieldText, fieldText]
  have hrel := ht.rel_child? field
  generalize n.child? field = c, n'.child? field = c' at hrel ⊢
  cases hrel with
  | none => rfl
  | some hc => exact hc.text_iff h hg hP

/-- A text that a field is compared with is the same in the node that is found again. -/
theorem fieldText_eq_iff (h : Reader.Sound) (hg : file.GrowsTo done rs) {word : String}
    (hword : ¬ HasBracket word.toList) (field : Field) :
    n'.fieldText done.text.toList field = word.toList ↔
      n.fieldText file.text.toList field = word.toList :=
  ht.fieldText_iff h hg (P := (· = word.toList)) (fun _ hcs => hcs ▸ hword) field

variable (hkind : ¬ IsBracketed n.kind)
include hkind

theorem forall₂ : List.Forall₂ (file.Traces done rs) n.children n'.children :=
  traces_of_grown (ht.grown.forall₂_children hkind) (fun _ hc => child_mem_subtreesAmong ht.mem hc)
    fun _ hc => child_mem_subtreesAmong ht.found hc

theorem forall₂_parts : List.Forall₂ (file.Traces done rs) n.parts n'.parts :=
  List.rel_filter (fun _ _ hc => Bool.eq_iff_iff.1 hc.grown.isPart.symm) (ht.forall₂ hkind)

theorem rel_part? (kind : Kind) :
    Option.Rel (file.Traces done rs) (n.part? kind) (n'.part? kind) :=
  rel_find? (ht.forall₂_parts hkind) fun c c' hc => by rw [hc.grown.kind]

theorem hasToken_eq (sign : String) : n'.hasToken sign = n.hasToken sign := by
  have hkinds {ns ns' : List Node} (hns : List.Forall₂ (file.Traces done rs) ns ns') :
      ns'.any (·.kind == .token sign) = ns.any (·.kind == .token sign) := by
    induction hns with
    | nil => rfl
    | cons hc _ ih => rw [List.any_cons, List.any_cons, hc.grown.kind, ih]
  exact hkinds (ht.forall₂ hkind)

end Traces

/-! ### Files in which the hook was migrated -/

/-- A file is found again in the file that it becomes when the hook is migrated in it. -/
theorem Inserts.exists_growsTo {given : List (Option Replacement)} {route : Option Replacement}
    (hinserts : file.Inserts given route done.text) (h : Reader.Sound) (hgrows : Reader.Grows) :
    ∃ rs, file.GrowsTo done rs ∧ ∀ r, r ∈ rs ↔ r ∈ given.reduceOption ++ route.toList := by
  obtain ⟨applied, hperm, happly⟩ := hinserts.all
  obtain ⟨haddr, htext⟩ := of_applyEdits happly
  have hmade : made (given.reduceOption ++ route.toList) = applied :=
    congrArg EditOutcome.applied (Except.ok.inj ((applyEdits_eq haddr).symm.trans happly))
  have hturn := madeInTurn_made haddr hinserts.insertions
  rw [hmade] at htext hturn
  -- an insertion is one that a class gets, or the one for the import
  have hforHook : ∀ r ∈ applied, IsForHook file.nodes r := by
    intro r hr
    rcases List.mem_append.1 (hperm.mem_iff.1 hr) with hr | hr
    · obtain ⟨c, hc, hgets⟩ := exists_of_mem_given hinserts.classes hr
      obtain ⟨hmem, hclass⟩ := mem_classes.1 (mem_hookClasses.1 hc).1
      obtain ⟨n, hn, htakes⟩ := exists_takes_of_gets hgets hclass
        (formed_of_mem_classes h (mem_hookClasses.1 hc).1)
      exact .inl ⟨n, subtreesAmong_trans hmem hn, htakes⟩
    · have hroute := hinserts.imported
      rw [Option.mem_toList.1 hr] at hroute
      cases hroute with
      | name hnone hfrom hvalue hadds =>
        obtain ⟨hmem, hkind⟩ := hfrom.mem
        exact .inl ⟨_, hmem, .inr (.inr ⟨hkind, hadds⟩)⟩
      | statement hnone htypes hfirst => exact .inr ⟨_, hfirst, rfl⟩
  exact ⟨applied, ⟨hturn, htext, hforHook,
    hgrows.grown file.nodes_eq done.nodes_eq hturn htext hforHook⟩, fun r => hperm.mem_iff⟩

end SourceFile
end

/-! ### A small file -/

section
variable {cs : List Char} {rs : List Replacement} {r : Replacement} {n : Node} {ns : List Node}

theorem byteLength_foldl_splice (h : MadeInTurn cs rs) :
    byteLength (rs.foldl splice cs) = byteLength cs + growth rs := by
  induction rs generalizing cs with
  | nil => rfl
  | cons r rs ih =>
    obtain ⟨⟨x, y, rfl, -, hsplice⟩, hmore, -⟩ := h.first
    rw [List.foldl_cons, ih hmore, hsplice, growth_cons]
    simp only [byteLength_append]
    omega

/-- Nothing shorter than one more name is inserted, and nothing else that is as short. -/
theorem length_of_isForHook (h : IsForHook ns r) :
    16 ≤ byteLength r.text.toList ∧ (byteLength r.text.toList = 16 →
      ∃ n ∈ subtreesAmong ns, n.kind = .namedImports ∧ r = extendNames n) := by
  have hlong {text : String} (hlt : 16 < byteLength text.toList) : 16 ≤ byteLength text.toList ∧
      (byteLength text.toList = 16 →
        ∃ n ∈ subtreesAmong ns, n.kind = .namedImports ∧ r = extendNames n) :=
    ⟨Nat.le_of_lt hlt, fun heq => absurd heq (Nat.ne_of_gt hlt)⟩
  rcases h with ⟨n, hn, ⟨-, hadds⟩ | ⟨-, hadds⟩ | ⟨hkind, hadds⟩⟩ | ⟨first, -, rfl⟩
  · have honly : 16 < byteLength "private activatedRoute: ActivatedRoute".toList := by
      decide +kernel
    have hlast : 16 < byteLength ", private activatedRoute: ActivatedRoute".toList := by
      decide +kernel
    have hcomma : 16 < byteLength " private activatedRoute: ActivatedRoute,".toList := by
      decide +kernel
    cases hadds with
    | only => exact hlong honly
    | last => exact hlong hlast
    | comma => exact hlong hcomma
  · obtain ⟨indent, rfl⟩ := hadds
    have hrest : 16 < byteLength
        "constructor(private activatedRoute: ActivatedRoute) \x7b\x7d\n".toList := by
      decide +kernel
    refine hlong ?_
    simp only [Replacement.insert, String.toList_ofList, byteLength, byteLength_append]
    omega
  · have honly : byteLength " ActivatedRoute ".toList = 16 := by decide +kernel
    have hlast : byteLength ", ActivatedRoute".toList = 16 := by decide +kernel
    cases hadds with
    | only hnone =>
      refine ⟨Nat.le_of_eq honly.symm, fun _ => ⟨n, hn, hkind, ?_⟩⟩
      rw [extendNames, hnone]
      rfl
    | last hlastpart =>
      refine ⟨Nat.le_of_eq hlast.symm, fun _ => ⟨n, hn, hkind, ?_⟩⟩
      rw [extendNames, hlastpart]
      rfl
  · have himport : 16 < byteLength
        "import \x7b ActivatedRoute \x7d from '@angular/router';\n".toList := by
      decide +kernel
    exact hlong himport

theorem growth_le (h : ∀ r ∈ rs, 16 ≤ byteLength r.text.toList) : 16 * rs.length ≤ growth rs := by
  induction rs with
  | nil => exact Nat.le_refl _
  | cons r rs ih =>
    obtain ⟨hr, hrs⟩ := List.forall_mem_cons.1 h
    have hle := ih hrs
    rw [growth_cons, List.length_cons]
    omega

end

/-- Of a text and one that is longer by a name, only the shorter one grows into the other. -/
theorem grammarOn_grows {before after : String}
    (hlength : byteLength after.toList = byteLength before.toList + 16)
    (hsame : ∀ p ∈ readings [before, after], GrownInto p.1.toList [] p.2 p.2)
    (hgrown : ∀ p ∈ readings [before, after], ∀ n ∈ subtreesAmong p.2, n.kind = .namedImports →
      ∀ q ∈ readings [before, after], q.1.toList = splice p.1.toList (extendNames n) →
        GrownInto q.1.toList [extendNames n] p.2 q.2) :
    @Reader.Grows (grammarOn [before, after]) := by
  let _ : Reader := grammarOn [before, after]
  constructor
  intro text grown nodes nodes' rs hread hread' hturn htext hhook
  have hmem := mem_readings.2 hread
  have hmem' := mem_readings.2 hread'
  have hle := growth_le fun r hr => (length_of_isForHook (hhook r hr)).1
  have hgrowth := byteLength_foldl_splice hturn
  rw [← htext] at hgrowth
  -- one insertion at most, and of a name
  have hone {text : String} {nodes : List Node} (h : (text, nodes) ∈ readings [before, after]) :
      text = before ∨ text = after := by
    have htext := (Option.ite_none_right_eq_some.1 (mem_readings.1 h)).1
    simpa using htext
  have hbound : growth rs ≤ 16 := by
    rcases hone hmem with rfl | rfl <;> rcases hone hmem' with rfl | rfl <;> omega
  match rs, hle with
  | [], _ =>
    obtain rfl : grown = text := String.toList_inj.1 htext
    obtain rfl := Option.some.inj (hread'.symm.trans hread)
    exact hsame _ hmem
  | [r], hle =>
    obtain ⟨hlong, hname⟩ := length_of_isForHook (hhook r List.mem_cons_self)
    have hgrowth₁ : growth [r] = byteLength r.text.toList := by simp [growth]
    obtain ⟨n, hn, hkind, rfl⟩ := hname (by omega)
    exact hgrown _ hmem n hn hkind _ hmem' htext
  | _ :: _ :: _, hle =>
    simp only [List.length_cons] at hle
    omega

/-- A class takes the active route, whose type is imported only in the second one of the texts. -/
def unimported : String :=
  "import\x7bRouter\x7dfrom'@angular/router'\n" ++
    "class A\x7bconstructor(activatedRoute)\x7b\x7duiOnParamsChanged()\x7b\x7d\x7d"

def imported : String :=
  "import\x7bRouter, ActivatedRoute\x7dfrom'@angular/router'\n" ++
    "class A\x7bconstructor(activatedRoute)\x7b\x7duiOnParamsChanged()\x7b\x7d\x7d"

@[reducible] def importReader : Reader := grammarOn [unimported, imported]

def unimportedFile : @SourceFile importReader :=
  @SourceFile.ofText importReader ⟨"a.ts"⟩ unimported (by decide +kernel)

def importedFile : @SourceFile importReader :=
  @SourceFile.ofText importReader ⟨"a.ts"⟩ imported (by decide +kernel)

set_option maxRecDepth 10000 in
theorem importReader_grows : @Reader.Grows importReader :=
  grammarOn_grows (by decide +kernel) (by decide +kernel) (by decide +kernel)

theorem migrateParamsHook_unimportedFile :
    let _ : Reader := importReader
    unimportedFile.migrateParamsHook = .ok importedFile := by
  intro _
  have hedits : unimportedFile.hookEdits = .ok [.insert 13 ", ActivatedRoute"] := by
    decide +kernel
  exact SourceFile.migrateParamsHook_of hedits (by decide +kernel) (by decide +kernel)
    (by decide +kernel)

end TypeScript
end RouterShift
