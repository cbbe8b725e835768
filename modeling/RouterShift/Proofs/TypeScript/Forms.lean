import RouterShift.Proofs.Grammar.Peg
import RouterShift.Proofs.TypeScript.Declarations
import RouterShift.TypeScript.Grammar

/-! The grammar is a sound reader. A node is made by one form of some rule, and what that form reads
    has the shape that the node promises (`Shaped`): one lemma for each kind of node whose shape
    anything hangs on, then all rules are gone through once (`marks_rules`). -/

namespace RouterShift.TypeScript

open Grammar Grammar.Tree Peg Text

variable {part first second : Form} {parts : List Form} {label : Label} {kind : Kind}
  {field : Option Field} {depth : Nat} {s : Cursor} {a : Reading Label}

/-- What the form reads is, as a node with the label, what the grammar makes sure of. -/
structure Shaped (label : Label) (part : Form) : Prop where
  wellFormed : ∀ ⦃depth s a⦄, read rules depth part s = .ok a →
    ∀ ⦃cs front⦄, Passes ⟨0, cs⟩ s front →
      (Grammar.Tree.node label ⟨s.pos, a.next.pos⟩ a.trees).WellFormed cs

/-! ### Readings of the common forms -/

/-- Blanks and comments leave nothing in the tree. -/
theorem tops_trivia {known : Rule → Prop} {Q : Label → Prop} :
    ∀ name, name = .trivia → (rules name).Tops known Q := by
  rintro _ rfl
  simp [rules, trivia, lineComment, blockComment, all, oneOf, Peg.optional, Tops]

theorem of_read_token (h : read rules depth (token part) s = .ok a) :
    ∃ d < depth, ∃ mid skipped, Passes s mid skipped ∧ read rules d part mid = .ok a := by
  obtain ⟨d, hd, b, c, hb, hc, rfl⟩ := of_read_seq h
  obtain ⟨skipped, hskipped⟩ := passes_of_read hb
  have hpart : (rule .trivia : Form).Tops (· = .trivia) fun _ => False := rfl
  have htrees : b.trees = [] := trees_of_read tops_trivia hpart hb
  refine ⟨d, hd, b.next, skipped, hskipped, ?_⟩
  rw [htrees]
  exact hc

/-- A reading of one node, behind what was skipped. -/
theorem of_read_marked (h : read rules depth (token (node label part)) s = .ok a) :
    ∃ d < depth, ∃ mid skipped b, Passes s mid skipped ∧ read rules d part mid = .ok b ∧
      a = ⟨[.node label ⟨mid.pos, b.next.pos⟩ b.trees], b.next⟩ := by
  obtain ⟨d, hd, mid, skipped, hskipped, h⟩ := of_read_token h
  obtain ⟨k, hk, b, hb, rfl⟩ := of_read_node h
  exact ⟨k, Nat.lt_trans hk hd, mid, skipped, b, hskipped, hb, rfl⟩

theorem of_read_bareSign {sign : String} (h : read rules depth (bareSign sign) s = .ok a) :
    ∃ t, a.trees = [t] ∧ t.kind = .token sign ∧ t.span = ⟨s.pos, a.next.pos⟩ := by
  obtain ⟨d, -, b, hb, rfl⟩ := of_read_node h
  exact ⟨_, rfl, rfl, rfl⟩

theorem of_read_signNode {sign : String} (h : read rules depth (signNode sign) s = .ok a) :
    ∃ t, a.trees = [t] ∧ t.kind = .token sign ∧ t.span.stop = a.next.pos := by
  obtain ⟨d, -, mid, skipped, b, -, -, rfl⟩ := of_read_marked h
  exact ⟨_, rfl, rfl, rfl⟩

theorem of_read_three {third : Form} (h : read rules depth (all [first, second, third]) s = .ok a) :
    ∃ d b c e, read rules d first s = .ok b ∧ (∃ d, read rules d second b.next = .ok c) ∧
      (∃ d, read rules d third c.next = .ok e) ∧ a = ⟨b.trees ++ (c.trees ++ e.trees), e.next⟩ := by
  obtain ⟨d, -, b, x, hb, hx, rfl⟩ := of_read_seq h
  obtain ⟨d', -, c, y, hc, hy, rfl⟩ := of_read_seq hx
  obtain ⟨d'', -, e, z, he, hz, rfl⟩ := of_read_seq hy
  obtain rfl := of_read_nothing hz
  exact ⟨d, b, c, e, hb, ⟨_, hc⟩, ⟨_, he⟩, by rw [List.append_nil]⟩

/-! ### Shapes -/

/-- Nothing hangs on the shape of these. -/
def Kind.isPlain : Kind → Bool
  | .object | .pair | .callExpression | .decorator | .classHeritage | .extendsClause
  | .exportStatement | .importStatement | .importClause | .namespaceImport | .importSpecifier
  | .other _ => true
  | _ => false

theorem cut_of_passes {cs front taken : List Char} {next : Cursor} (h : Passes ⟨0, cs⟩ s front)
    (hpass : Passes s next taken) : slice? cs s.pos next.pos = some taken := by
  refine slice?_eq_some.2 ⟨front, next.rest, ?_, ?_, hpass.pos.symm⟩
  · rw [List.append_assoc, ← hpass.rest]
    exact h.rest
  · rw [h.pos, Nat.zero_add]

theorem text_of_passes {cs front taken : List Char} {next : Cursor} (h : Passes ⟨0, cs⟩ s front)
    (hpass : Passes s next taken) (label : Label) (trees : List Node) :
    (Grammar.Tree.node label ⟨s.pos, next.pos⟩ trees).text cs = taken :=
  text_eq_of_slice? (cut_of_passes h hpass)

theorem exists_cut {cs front : List Char} (h : Passes ⟨0, cs⟩ s front)
    (hread : read rules depth part s = .ok a) (label : Label) (trees : List Node) :
    ∃ taken, slice? cs (Grammar.Tree.node label ⟨s.pos, a.next.pos⟩ trees).span.start
      (Grammar.Tree.node label ⟨s.pos, a.next.pos⟩ trees).span.stop = some taken := by
  obtain ⟨taken, htaken⟩ := passes_of_read hread
  exact ⟨taken, cut_of_passes h htaken⟩

theorem shaped_plain (h : kind.isPlain = true) : Shaped ⟨kind, field⟩ part := by
  refine ⟨fun depth s a hread cs front hfront => ?_⟩
  constructor
  case cut => exact exists_cut hfront hread _ _
  all_goals cases kind <;> first | exact Bool.noConfusion h | exact nofun

theorem shaped_leaf (hkind : kind = .identifier ∨ kind = .typeIdentifier)
    (hpart : part.Tops (· = .trivia) fun _ => False) : Shaped ⟨kind, field⟩ part := by
  refine ⟨fun depth s a hread cs front hfront => ?_⟩
  have htrees : a.trees = [] := trees_of_read tops_trivia hpart hread
  constructor
  case cut => exact exists_cut hfront hread _ _
  case leaf => exact fun _ => htrees
  all_goals rcases hkind with rfl | rfl <;> exact nofun

theorem tops_nameOf {known : Rule → Prop} {Q : Label → Prop} {accepts : List Char → Bool} :
    (nameOf accepts).Tops known Q := by
  simp [nameOf, nameEscape, all, Peg.optional, Tops]

theorem shaped_identifier : Shaped ⟨.identifier, field⟩ identifier :=
  shaped_leaf (.inl rfl) ⟨rfl, tops_nameOf⟩

theorem shaped_anyName : Shaped ⟨.identifier, field⟩ anyName :=
  shaped_leaf (.inl rfl) ⟨rfl, tops_nameOf⟩

theorem shaped_typeIdentifier : Shaped ⟨.typeIdentifier, field⟩ identifier :=
  shaped_leaf (.inr rfl) ⟨rfl, tops_nameOf⟩

theorem shaped_token {sign : String} {field : Option Field}
    (hpart : ∀ ⦃depth s a⦄, read rules depth part s = .ok a →
      a.trees = [] ∧ Passes s a.next sign.toList) : Shaped ⟨.token sign, field⟩ part := by
  refine ⟨fun depth s a hread cs front hfront => ?_⟩
  obtain ⟨htrees, hpass⟩ := hpart hread
  constructor
  case cut => exact exists_cut hfront hread _ _
  case leaf => exact fun _ => htrees
  case token =>
    intro sign' hsign
    cases hsign
    exact text_of_passes hfront hpass _ _
  all_goals exact nofun

/-! ### Literals -/

theorem of_read_quotedBy {quote : Char} (h : read rules depth (quotedBy quote) s = .ok a) :
    ∃ raw, Passes s a.next (quote :: (raw ++ [quote])) := by
  obtain ⟨d, b, c, e, hb, ⟨_, hc⟩, ⟨_, he⟩, rfl⟩ := of_read_three h
  obtain ⟨inside, hinside⟩ := passes_of_read hc
  obtain ⟨_, -, mid, skipped, hskipped, he⟩ := of_read_token he
  refine ⟨inside ++ skipped, ?_⟩
  simpa using (of_read_text hb).2.append (hinside.append (hskipped.append (of_read_text he).2))

theorem of_read_templateOf (h : read rules depth (templateOf part) s = .ok a) :
    ∃ raw, Passes s a.next ('\x60' :: (raw ++ ['\x60'])) := by
  obtain ⟨d, b, c, e, hb, ⟨_, hc⟩, ⟨_, he⟩, rfl⟩ := of_read_three h
  obtain ⟨inside, hinside⟩ := passes_of_read hc
  refine ⟨inside, ?_⟩
  simpa using (of_read_text hb).2.append (hinside.append (of_read_text he).2)

theorem shaped_literal (hkind : kind = .string ∨ kind = .templateString)
    (hpart : ∀ ⦃depth s a⦄, read rules depth part s = .ok a → ∃ d ∈ Literal.delimiters,
      (kind = .templateString ↔ d = '\x60') ∧ ∃ raw, Passes s a.next (d :: (raw ++ [d]))) :
    Shaped ⟨kind, field⟩ part := by
  refine ⟨fun depth s a hread cs front hfront => ?_⟩
  constructor
  case cut => exact exists_cut hfront hread _ _
  case literal =>
    obtain ⟨d, hd, hdelimiter, raw, hpass⟩ := hpart hread
    exact fun _ => ⟨d, hd, hdelimiter, raw, text_of_passes hfront hpass _ _⟩
  all_goals rcases hkind with rfl | rfl <;> exact nofun

theorem shaped_quoted : Shaped ⟨.string, field⟩ (rule .quoted) := by
  refine shaped_literal (.inl rfl) fun depth s a h => ?_
  obtain ⟨_, -, h⟩ := of_read_rule h
  obtain ⟨_, -, h | h⟩ := of_read_choice h
  · exact ⟨'\'', by decide, by decide, of_read_quotedBy h⟩
  · exact ⟨'"', by decide, by decide, of_read_quotedBy h⟩

theorem shaped_template : Shaped ⟨.templateString, field⟩ (rule .template) := by
  refine shaped_literal (.inr rfl) fun depth s a h => ?_
  obtain ⟨_, -, h⟩ := of_read_rule h
  exact ⟨'\x60', by decide, by decide, of_read_templateOf h⟩

/-! ### Classes -/

/-- The rules that leave parts of a class or a method to the node around them. -/
def Rule.isMembral : Rule → Bool
  | .trivia | .decorator | .classTail | .typeParameters | .typeTerm | .signature | .parameters
  | .returnType | .block => true
  | _ => false

theorem tops_membral {Q : Label → Prop} (hplain : ∀ kind, Q ⟨kind, none⟩)
    (hbody : Q ⟨.classBody, some .body⟩) (hparameters : Q ⟨.formalParameters, some .parameters⟩) :
    ∀ name, name.isMembral = true → (rules name).Tops (·.isMembral = true) Q := by
  intro name hname
  cases name <;> first
    | exact Bool.noConfusion hname
    | simp [rules, trivia, lineComment, blockComment, decorator, classTail, typeParameters, typeTerm,
        signature, parameters, returnType, block, within, commaList, separated, sign, word, wordOf,
        identifier, nameOf, nameEscape, nodeOf, fieldOf, token, all, oneOf, Peg.optional, Tops,
        Rule.isMembral, hplain, hbody, hparameters]

theorem shaped_class (field : Option Field)
    (hkind : kind = .classDeclaration ∨ kind = .abstractClassDeclaration)
    (hpart : part.Tops (·.isMembral = true) fun label =>
      (label.field = some .name → label.kind = .typeIdentifier) ∧
        (label.field = some .body → label.kind = .classBody)) : Shaped ⟨kind, field⟩ part := by
  refine ⟨fun depth s a hread cs front hfront => ?_⟩
  have htops := tops_of_read (tops_membral (by simp) (by simp) (by simp)) hpart hread
  constructor
  case cut => exact exists_cut hfront hread _ _
  case className =>
    intro _ c hc
    obtain ⟨hmem, hname⟩ := mem_of_child? hc
    exact (htops c hmem).1 hname
  case classBody =>
    intro _ c hc
    obtain ⟨hmem, hbody⟩ := mem_of_child? hc
    exact (htops c hmem).2 hbody
  all_goals rcases hkind with rfl | rfl <;> exact nofun

/-- A signature has a list of parameters. -/
theorem exists_of_read_signature (h : read rules depth (rule .signature) s = .ok a) :
    ∃ t ∈ a.trees, t.label = ⟨.formalParameters, some .parameters⟩ := by
  obtain ⟨_, -, h⟩ := of_read_rule h
  obtain ⟨_, b, c, e, -, ⟨_, hc⟩, -, rfl⟩ := of_read_three h
  obtain ⟨_, -, hc⟩ := of_read_rule hc
  obtain ⟨_, -, mid, _, inside, -, -, rfl⟩ := of_read_marked hc
  exact ⟨.node ⟨.formalParameters, some .parameters⟩ ⟨mid.pos, inside.next.pos⟩ inside.trees,
    by simp, rfl⟩

theorem exists_child? {n c : Node} {field : Field} (hc : c ∈ n.children)
    (hfield : c.field = some field) : ∃ d, n.child? field = some d :=
  Option.isSome_iff_exists.1 (List.find?_isSome.2 ⟨c, hc, by simpa using hfield⟩)

theorem shaped_method (hpart : first.Tops (·.isMembral = true) fun label =>
      label.field = some .parameters → label.kind = .formalParameters) :
    Shaped ⟨.methodDefinition, field⟩ (all [first, rule .signature, rule .block]) := by
  refine ⟨fun depth s a hread cs front hfront => ?_⟩
  have hall : (all [first, rule .signature, rule .block]).Tops (·.isMembral = true) fun label =>
      label.field = some .parameters → label.kind = .formalParameters :=
    ⟨hpart, rfl, rfl, trivial⟩
  have htops := tops_of_read (tops_membral (by simp) (by simp) (by simp)) hall hread
  have hlist : ∃ t ∈ a.trees, t.label = ⟨.formalParameters, some .parameters⟩ := by
    obtain ⟨_, b, c, e, -, ⟨_, hc⟩, -, rfl⟩ := of_read_three hread
    obtain ⟨t, ht, hlabel⟩ := exists_of_read_signature hc
    exact ⟨t, by simp [ht], hlabel⟩
  constructor
  case cut => exact exists_cut hfront hread _ _
  case method =>
    intro _
    obtain ⟨t, ht, hlabel⟩ := hlist
    obtain ⟨list, hlist⟩ := exists_child?
      (n := .node ⟨.methodDefinition, field⟩ ⟨s.pos, a.next.pos⟩ a.trees) ht
      (congrArg Label.field hlabel)
    obtain ⟨hmem, hfield⟩ := mem_of_child? hlist
    exact ⟨list, hlist, htops list hmem hfield⟩
  all_goals exact nofun

/-! ### Lists -/

/-- What is read between two signs is a list that they enclose. -/
theorem encloses_of_read {opening closing : String} {b c e : Reading Label} {d d' : Nat}
    (hopening : read rules d (bareSign opening) s = .ok b)
    (hclosing : read rules d' (signNode closing) c.next = .ok e) :
    (Grammar.Tree.node label ⟨s.pos, e.next.pos⟩ (b.trees ++ (c.trees ++ e.trees))).Encloses
      opening c.trees closing := by
  obtain ⟨first, hfirst, hkind, hspan⟩ := of_read_bareSign hopening
  obtain ⟨last, hlast, hkind', hstop⟩ := of_read_signNode hclosing
  exact ⟨first, last, by rw [hfirst, hlast]; rfl, hkind, by rw [hspan]; rfl, hkind', hstop⟩

theorem shaped_body : Shaped ⟨.classBody, field⟩
    (seq (bareSign "\x7b") (commit (seq part (signNode "\x7d")))) := by
  refine ⟨fun depth s a hread cs front hfront => ?_⟩
  constructor
  case cut => exact exists_cut hfront hread _ _
  case body =>
    intro _
    obtain ⟨_, -, b, x, hb, hx, rfl⟩ := of_read_seq hread
    obtain ⟨_, -, hx⟩ := of_read_commit hx
    obtain ⟨_, -, c, e, hc, he, rfl⟩ := of_read_seq hx
    exact ⟨c.trees, encloses_of_read hb he⟩
  all_goals exact nofun

theorem shaped_names : Shaped ⟨.namedImports, field⟩
    (all [bareSign "\x7b", part, signNode "\x7d"]) := by
  refine ⟨fun depth s a hread cs front hfront => ?_⟩
  constructor
  case cut => exact exists_cut hfront hread _ _
  case names =>
    intro _
    obtain ⟨_, b, c, e, hb, ⟨_, hc⟩, ⟨_, he⟩, rfl⟩ := of_read_three hread
    exact ⟨c.trees, encloses_of_read hb he⟩
  all_goals exact nofun

/-- Commas and items after an item, and then what may come after an item. -/
theorem isCommaList_append {rest : List Node}
    (hpart : ∀ ⦃depth s a⦄, read rules depth part s = .ok a → ∃ t, a.trees = [t] ∧ t.isPart = true)
    (hrest : ∀ item : Node, item.isPart = true → IsCommaList (item :: rest))
    (h : read rules depth (many (seq (signNode ",") part)) s = .ok a) {item : Node}
    (hitem : item.isPart = true) : IsCommaList (item :: (a.trees ++ rest)) := by
  induction depth using Nat.strongRecOn generalizing s a item with
  | ind depth ih =>
    obtain ⟨d, hd, ⟨rfl, -⟩ | ⟨b, c, hb, hc, rfl⟩⟩ := of_read_many h
    · exact hrest item hitem
    · obtain ⟨_, -, x, y, hx, hy, rfl⟩ := of_read_seq hb
      obtain ⟨comma, hcomma, hkind, -⟩ := of_read_signNode hx
      obtain ⟨next, hnext, hisPart⟩ := hpart hy
      rw [hcomma, hnext]
      exact ⟨hitem, hkind, ih d hd hc hisPart⟩

theorem isCommaList_of_read
    (hpart : ∀ ⦃depth s a⦄, read rules depth part s = .ok a → ∃ t, a.trees = [t] ∧ t.isPart = true)
    (h : read rules depth (all [part, many (seq (signNode ",") part),
      Peg.optional (signNode ",")]) s = .ok a) : IsCommaList a.trees := by
  obtain ⟨_, b, c, e, hb, ⟨_, hc⟩, ⟨_, he⟩, rfl⟩ := of_read_three h
  obtain ⟨item, hitem, hisPart⟩ := hpart hb
  rw [hitem]
  refine isCommaList_append hpart (fun item hitem => ?_) hc hisPart
  obtain ⟨_, -, he | he⟩ := of_read_choice he
  · obtain ⟨comma, hcomma, hkind, -⟩ := of_read_signNode he
    rw [hcomma]
    exact ⟨hitem, hkind, trivial⟩
  · rw [of_read_nothing he]
    exact hitem

theorem of_read_parameter (h : read rules depth (rule .parameter) s = .ok a) :
    ∃ t, a.trees = [t] ∧ t.isPart = true := by
  obtain ⟨_, -, h⟩ := of_read_rule h
  obtain ⟨_, -, mid, _, inside, -, -, rfl⟩ := of_read_marked h
  exact ⟨_, rfl, rfl⟩

/-- There is no comment among the items of the grammar and their commas. -/
theorem kind_ne_comment {items : List Node} (h : IsCommaList items) :
    ∀ c ∈ items, c.kind ≠ .comment := by
  have hpart {n : Node} (hn : n.isPart = true) : n.kind ≠ .comment := by
    rw [isPart, Bool.and_eq_true] at hn
    simpa using hn.2
  fun_induction IsCommaList items with
  | case1 => exact List.forall_mem_nil _
  | case2 item => exact List.forall_mem_singleton.2 (hpart h)
  | case3 item comma rest ih =>
    obtain ⟨hitem, hcomma, hrest⟩ := h
    refine List.forall_mem_cons.2 ⟨hpart hitem, List.forall_mem_cons.2 ⟨?_, ih hrest⟩⟩
    simp [hcomma]

theorem shaped_parameters : Shaped ⟨.formalParameters, field⟩
    (all [bareSign "(", Peg.optional (all [rule .parameter,
      many (seq (signNode ",") (rule .parameter)), Peg.optional (signNode ",")]),
      signNode ")"]) := by
  refine ⟨fun depth s a hread cs front hfront => ?_⟩
  constructor
  case cut => exact exists_cut hfront hread _ _
  case parameters =>
    intro _
    obtain ⟨_, b, c, e, hb, ⟨_, hc⟩, ⟨_, he⟩, rfl⟩ := of_read_three hread
    have hitems : IsCommaList c.trees := by
      obtain ⟨_, -, hc | hc⟩ := of_read_choice hc
      · exact isCommaList_of_read (fun _ _ _ => of_read_parameter) hc
      · rw [of_read_nothing hc]
        trivial
    refine ⟨c.trees, encloses_of_read hb he, ?_⟩
    rwa [List.filter_eq_self.2 fun c hc => decide_eq_true (kind_ne_comment hitems c hc)]
  all_goals exact nofun

/-! ### All rules -/

section
variable {P : Label → Form → Prop} {sign closing : String} {words : List String}
  {longer : Char → Bool}

@[simp] theorem marks_all : (all parts).Marks P ↔ ∀ p ∈ parts, p.Marks P := by
  induction parts with
  | nil => simp [all, Marks]
  | cons p parts ih =>
    rw [List.forall_mem_cons, ← ih]
    rfl

@[simp] theorem marks_oneOf : (oneOf parts).Marks P ↔ ∀ p ∈ parts, p.Marks P := by
  induction parts with
  | nil => simp [oneOf, Marks]
  | cons p parts ih =>
    rw [List.forall_mem_cons, ← ih]
    cases parts with
    | nil => simp [oneOf, Marks]
    | cons q parts => rfl

@[simp] theorem marks_token : (token part).Marks P ↔ part.Marks P := by simp [token, Marks]

@[simp] theorem marks_optional : (Peg.optional part).Marks P ↔ part.Marks P := by
  simp [Peg.optional, Marks]

@[simp] theorem marks_ahead : (ahead part).Marks P ↔ part.Marks P := Iff.rfl

@[simp] theorem marks_separated :
    (separated first second).Marks P ↔ first.Marks P ∧ second.Marks P := by
  rw [separated, Marks, Marks, Marks]
  tauto

@[simp] theorem marks_nodeOf : (nodeOf kind part).Marks P ↔ P ⟨kind, none⟩ part ∧ part.Marks P := by
  rw [nodeOf, marks_token, Marks]

@[simp] theorem marks_fieldOf {field : Field} :
    (fieldOf field kind part).Marks P ↔ P ⟨kind, some field⟩ part ∧ part.Marks P := by
  rw [fieldOf, marks_token, Marks]

@[simp] theorem marks_sign : (TypeScript.sign sign).Marks P := by simp [TypeScript.sign, Marks]

@[simp] theorem marks_signNotBefore : (signNotBefore sign longer).Marks P := by
  simp [signNotBefore, Marks]

@[simp] theorem marks_word : (word sign).Marks P := by simp [word, Marks]

@[simp] theorem marks_wordOf : (wordOf words).Marks P := by simp [wordOf, Marks]

@[simp] theorem marks_nameOf {accepts : List Char → Bool} : (nameOf accepts).Marks P := by
  simp [nameOf, nameEscape, Marks]

@[simp] theorem marks_identifier : identifier.Marks P := by simp [identifier]

@[simp] theorem marks_anyName : anyName.Marks P := by simp [anyName]

@[simp] theorem marks_privateName : privateName.Marks P := by simp [privateName, Marks]

@[simp] theorem marks_commaList : (commaList part).Marks P ↔ part.Marks P := by
  simp [commaList, Marks]

@[simp] theorem marks_within : (within sign part closing).Marks P ↔ part.Marks P := by
  simp [within]

@[simp] theorem marks_quotedBy {quote : Char} : (quotedBy quote).Marks P := by
  simp [quotedBy, Marks]

end

@[simp] theorem marks_bareSign {sign : String} : (bareSign sign).Marks Shaped := by
  refine ⟨shaped_token fun depth s a h => of_read_text h, trivial⟩

@[simp] theorem marks_signNode {sign : String} : (signNode sign).Marks Shaped := by
  simp [signNode]

@[simp] theorem marks_wordNode {sign : String} : (wordNode sign).Marks Shaped := by
  refine marks_nodeOf.2 ⟨shaped_token fun depth s a h => ?_, trivial⟩
  obtain ⟨taken, haccepts, -, -, -, htrees, hpass⟩ := of_read_run h
  rw [beq_iff_eq] at haccepts
  exact ⟨htrees, haccepts ▸ hpass⟩

@[simp] theorem marks_templateOf : (templateOf part).Marks Shaped ↔ part.Marks Shaped := by
  simp +decide [templateOf, Marks, shaped_plain]

theorem marks_classDeclaration : classDeclaration.Marks Shaped := by
  have hnamed : Tops (·.isMembral = true) (fun label =>
      (label.field = some .name → label.kind = .typeIdentifier) ∧
        (label.field = some .body → label.kind = .classBody))
      (all [word "class", fieldOf .name .typeIdentifier identifier, rule .classTail]) := by
    simp [all, word, fieldOf, token, Tops, Rule.isMembral]
  have habstract := shaped_class none (.inr rfl)
    (show Tops _ _ (all [many (rule .decorator), word "abstract", _]) from
      ⟨rfl, ⟨rfl, trivial⟩, hnamed, trivial⟩)
  have hplain := shaped_class none (.inl rfl)
    (show Tops _ _ (seq (many (rule .decorator)) _) from ⟨rfl, hnamed⟩)
  simp [classDeclaration, decoratorShape, dottedName, Marks, hplain, habstract,
    shaped_typeIdentifier]

theorem marks_classMember : classMember.Marks Shaped := by
  have hname : Tops (·.isMembral = true)
      (fun label => label.field = some .parameters → label.kind = .formalParameters)
      memberName := by
    simp [memberName, memberModifier, all, fieldOf, wordOf, sign, token, Peg.optional, ahead, Tops,
      Rule.isMembral]
  have hmarks : memberName.Marks Shaped := by
    simp +decide [memberName, memberModifier, Marks, shaped_plain]
  simp +decide [classMember, memberModifier, memberStop, annotation, initializer, Marks, hmarks,
    shaped_plain, shaped_method hname]

theorem marks_rules (name : Rule) : (rules name).Marks Shaped := by
  cases name <;> simp +decide [rules, Marks, marks_classDeclaration, marks_classMember, shaped_plain,
    shaped_quoted, shaped_template, shaped_identifier, shaped_anyName, shaped_body, shaped_names,
    shaped_parameters, trivia, sameLine, newline, semicolon, endOfText, lineComment, blockComment,
    quoted, escape, template, number, regex, group, groupPart,
    file, statement, block, variableList, binding, sparseList, signature, parameters, parameter,
    decorator, classExpression, classTail, importStatement, exportStatement, moduleClause,
    sourceLiteral, declaration, functionDeclaration, enumDeclaration, interfaceDeclaration,
    typeAlias, moduleDeclaration, controlStatement, jump, forStatement, switchStatement,
    tryStatement, braced, annotation, initializer, dottedName, decoratorShape, behindTypeArguments, valueOf,
    expression, assignment, assigns, arrow, conditional, binary, operator, unary, leftHand, suffix,
    primary, TypeScript.arguments, object, property, propertyName, function,
    typeTerm, typeBody, typeUnion, typeOperand, typePrimary, tupleElement, typeParameters,
    typeArguments, objectType, typeMember, optionalSign, returnType, functionType,
    arrowBehindGroup]

/-! ### The grammar as a reader -/

/-- What is read as a source by the grammar keeps to it. -/
theorem grammarReader_sound : @Reader.Sound grammarReader := by
  have hread {text : String} {nodes : List Node} (h : statements? text = some nodes) :
      ∃ a, read rules (depthFor text.toList.length) file ⟨0, text.toList⟩ = .ok a ∧
        a.trees = nodes := by
    rw [statements?] at h
    split at h
    · next a ha => exact ⟨a, ha, Option.some.inj h⟩
    · cases h
  constructor
  case nested =>
    intro text nodes h
    obtain ⟨a, ha, rfl⟩ := hread h
    obtain ⟨taken, htaken⟩ := passes_of_read ha
    have hend : AmongWithin a.next.pos (byteLength text.toList) ([] : List Node) := by
      have hle : a.next.pos ≤ byteLength text.toList := by
        have htext : text.toList = taken ++ a.next.rest := htaken.rest
        rw [htaken.pos, htext, byteLength_append, Nat.zero_add]
        exact Nat.le_add_right _ _
      exact hle
    simpa using (within_of_read ha).append hend
  case formed =>
    intro text nodes h n hn
    obtain ⟨a, ha, rfl⟩ := hread h
    obtain ⟨part, _, before, reading, skipped, hshaped, hskipped, hreading, hspan, hchildren⟩ :=
      (sound_of_read marks_rules (marks_rules .file) ha).trees n hn
    have hformed := hshaped.wellFormed hreading hskipped
    rw [← hspan, ← hchildren] at hformed
    cases n
    exact hformed

/-- The grammar, as a reader of some texts only: what it makes sure of can be looked through. -/
@[reducible] def grammarOn (texts : List String) : Reader where
  read? text := if text ∈ texts then statements? text else none

/-- The texts, and what is read from them. -/
def readings (texts : List String) : List (String × List Node) :=
  texts.flatMap fun text => (statements? text).toList.map (text, ·)

theorem mem_readings {texts : List String} {text : String} {nodes : List Node} :
    (text, nodes) ∈ readings texts ↔ (grammarOn texts).read? text = some nodes := by
  have hread : (grammarOn texts).read? text = if text ∈ texts then statements? text else none := rfl
  simp [readings, hread]

theorem grammarOn_sound (texts : List String) : @Reader.Sound (grammarOn texts) := by
  have hread {text : String} {nodes : List Node} (h : (grammarOn texts).read? text = some nodes) :
      grammarReader.read? text = some nodes := by
    obtain ⟨-, h⟩ := Option.ite_none_right_eq_some.1 h
    exact h
  exact @Reader.Sound.mk (grammarOn texts)
    (fun h => @Reader.Sound.nested grammarReader grammarReader_sound _ _ (hread h))
    (fun h => @Reader.Sound.formed grammarReader grammarReader_sound _ _ (hread h))

end RouterShift.TypeScript
