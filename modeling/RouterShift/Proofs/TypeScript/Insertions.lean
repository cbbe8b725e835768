import RouterShift.Proofs.Edit.Moved
import RouterShift.Proofs.TypeScript.Declarations

/-! What can be inserted for the hook: a parameter as the last one of a list (`AddsParameter`), a
    constructor as the first member of a class (`AddsConstructor`), a name as the last one in the
    braces of an import (`AddsName`). Each is inserted behind a child of its node that is not the last
    one, so it is inside the node and in none of its children. -/

namespace RouterShift.TypeScript

open Grammar.Tree Text Edit

/-- Comments, and then the parenthesis that ends a list. -/
def Closes (ns : List Node) : Prop :=
  ∃ comments closing, ns = comments ++ [closing] ∧ (∀ c ∈ comments, c.kind = .comment) ∧
    closing.kind = .token ")"

/-- One more parameter becomes the last one of a list: behind it there is nothing but comments and the
    parenthesis. -/
inductive AddsParameter (list : Node) : Replacement → Prop
  /-- The list has been empty. -/
  | only {opening : Node} {behind : List Node} (hchildren : list.children = opening :: behind)
    (hopening : opening.kind = .token "(") (hbehind : Closes behind) :
    AddsParameter list (.insert opening.span.stop "private activatedRoute: ActivatedRoute")
  | last {before behind : List Node} {last : Node}
    (hchildren : list.children = before ++ last :: behind) (hlast : last.isPart = true)
    (hbehind : Closes behind) :
    AddsParameter list (.insert last.span.stop ", private activatedRoute: ActivatedRoute")
  /-- There is a comma behind the last parameter. -/
  | comma {before between behind : List Node} {last comma : Node}
    (hchildren : list.children = before ++ last :: (between ++ comma :: behind))
    (hlast : last.isPart = true) (hbetween : ∀ c ∈ between, c.kind = .comment)
    (hcomma : comma.kind = .token ",") (hbehind : Closes behind) :
    AddsParameter list (.insert comma.span.stop " private activatedRoute: ActivatedRoute,")

/-- A constructor that takes the parameter and nothing else becomes the first member of a class. -/
def AddsConstructor (body : Node) (r : Replacement) : Prop :=
  ∃ indent, r = .insert (body.span.start + 1) (String.ofList ('\n' :: (List.replicate indent ' ' ++
    "constructor(private activatedRoute: ActivatedRoute) \x7b\x7d\n".toList)))

/-- The name of the type becomes the last one in the braces of an import. -/
inductive AddsName (names : Node) : Replacement → Prop
  /-- The braces have been empty. -/
  | only (hnone : names.partsOf .importSpecifier = []) :
    AddsName names (.insert (names.span.start + 1) " ActivatedRoute ")
  | last {last : Node} (hlast : (names.partsOf .importSpecifier).getLast? = some last) :
    AddsName names (.insert last.span.stop ", ActivatedRoute")

section
variable {cs : List Char} {n last list body names : Node} {lo hi : Nat} {r : Replacement}
  {ns before behind items : List Node}

/-! ### The end of a parameter list -/

theorem routeParameter_eq : routeParameter = "private activatedRoute: ActivatedRoute" := by
  decide +kernel

/-- Behind the last item of a comma list there is at most a comma. -/
theorem behind_of_isCommaList : ∀ {before : List Node},
    IsCommaList (before ++ last :: behind) → last.isPart = true →
    (∀ c ∈ behind, c.isPart = false) → behind = [] ∨ ∃ comma, behind = [comma] ∧
      comma.kind = .token ","
  | [], h, _, hnone => by
    match behind, h with
    | [], _ => exact .inl rfl
    | [comma], h => exact .inr ⟨comma, rfl, h.2.1⟩
    | comma :: item :: rest, h =>
      have hitem : item.isPart = true := by
        cases rest with
        | nil => exact h.2.2
        | cons _ _ => exact h.2.2.1
      rw [hnone item (by simp)] at hitem
      cases hitem
  | [item], h, hlast, _ => by
    have hkind : last.kind = .token "," := h.2.1
    simp [isPart, isNamed, hkind] at hlast
  | item :: comma :: before, h, hlast, hnone => behind_of_isCommaList h.2.2 hlast hnone

/-- The last part of a list, and that there is none behind it. -/
theorem exists_of_getLast?_parts (h : (ns.filter (·.isPart)).getLast? = some last) :
    ∃ before behind, ns = before ++ last :: behind ∧ last.isPart = true ∧
      ∀ c ∈ behind, c.isPart = false := by
  rw [← List.head?_reverse, ← List.filter_reverse, List.head?_filter,
    List.find?_eq_some_iff_append] at h
  obtain ⟨hlast, behind, before, hns, hnone⟩ := h
  refine ⟨before.reverse, behind.reverse, ?_, hlast, fun c hc => ?_⟩
  · rw [← List.reverse_reverse ns, hns]
    simp
  · simpa using hnone c (List.mem_reverse.1 hc)

theorem isPart_of_token {sign : String} (h : n.kind = .token sign) : n.isPart = false := by
  simp [isPart, isNamed, h]

/-- The comma behind a parameter is the first one among what follows it in the list. -/
theorem commaBehind?_eq (hn : list.Within lo hi) (hformed : ∀ c ∈ list.children, c.WellFormed cs)
    (hchildren : list.children = before ++ last :: behind) (hlast : last.isPart = true) :
    commaBehind? list last = behind.find? (·.kind == .token ",") := by
  have hpairwise := hn.inside.pairwise
  rw [hchildren, List.pairwise_append, List.pairwise_cons] at hpairwise
  obtain ⟨-, ⟨hafter, -⟩, hbefore⟩ := hpairwise
  have hmem {c : Node} (hc : c ∈ before ∨ c = last) : c ∈ list.children := by
    rw [hchildren]
    rcases hc with hc | rfl
    · exact List.mem_append_left _ hc
    · simp
  have hearlier : ∀ c ∈ before,
      (c.kind == .token "," && decide (last.span.stop ≤ c.span.start)) = false := by
    intro c hc
    by_contra hcomma
    simp only [Bool.not_eq_false, Bool.and_eq_true, beq_iff_eq, decide_eq_true_eq] at hcomma
    -- a comma before the parameter would have to end behind where the parameter begins
    have hlength := (hformed c (hmem (.inl hc))).length_token hcomma.1
    have hordered := (hn.child (hmem (.inr rfl))).between.2.1
    have hstop := hbefore c hc last List.mem_cons_self
    have hone : byteLength ",".toList = 1 := rfl
    omega
  have hself : (last.kind == .token "," && decide (last.span.stop ≤ last.span.start)) = false := by
    by_contra hcomma
    simp only [Bool.not_eq_false, Bool.and_eq_true, beq_iff_eq] at hcomma
    rw [isPart_of_token hcomma.1] at hlast
    cases hlast
  have hlater : ∀ c ∈ behind, (c.kind == .token "," && decide (last.span.stop ≤ c.span.start)) =
      (c.kind == .token ",") := by
    intro c hc
    rw [decide_eq_true (hafter c hc), Bool.and_true]
  rw [commaBehind?, hchildren, List.find?_append,
    List.find?_eq_none.2 fun c hc => Bool.eq_false_iff.1 (hearlier c hc), Option.none_or,
    List.find?_cons, hself]
  simp only
  rw [← List.head?_filter, List.filter_congr hlater, List.head?_filter]

/-- A list that begins with no parameter has comments in it only. -/
theorem comments_of_isCommaList (h : IsCommaList (items.filter (·.kind ≠ .comment)))
    (hnone : ∀ c ∈ items, c.isPart = false) : ∀ c ∈ items, c.kind = .comment := by
  intro c hc
  by_contra hcomment
  have hmem : c ∈ items.filter (·.kind ≠ .comment) := by simpa [hc] using hcomment
  obtain ⟨item, rest, hfilter⟩ := List.exists_cons_of_ne_nil (List.ne_nil_of_mem hmem)
  have hitem : item.isPart = true := by
    rw [hfilter] at h
    cases rest with
    | nil => exact h
    | cons _ _ => exact h.1
  have hmem : item ∈ items.filter (·.kind ≠ .comment) := hfilter ▸ List.mem_cons_self
  rw [hnone item (List.mem_filter.1 hmem).1] at hitem
  cases hitem

/-- Behind the last parameter there are comments, with at most one comma between them. -/
theorem comments_of_behind {behind : List Node}
    (h : IsCommaList ((before ++ last :: behind).filter (·.kind ≠ .comment)))
    (hlast : last.isPart = true) (hnone : ∀ c ∈ behind, c.isPart = false) :
    (∀ c ∈ behind, c.kind = .comment) ∧ behind.find? (·.kind == .token ",") = none ∨
      ∃ between comma rest, behind = between ++ comma :: rest ∧
        (∀ c ∈ between, c.kind = .comment) ∧ comma.kind = .token "," ∧
          (∀ c ∈ rest, c.kind = .comment) ∧ behind.find? (·.kind == .token ",") = some comma := by
  have hkind : last.kind ≠ .comment := by
    intro hcomment
    simp [isPart, hcomment] at hlast
  rw [List.filter_append, List.filter_cons_of_pos (by simpa using hkind)] at h
  rcases behind_of_isCommaList h hlast fun c hc => hnone c (List.mem_filter.1 hc).1 with
    hnil | ⟨comma, hcomma, hcommakind⟩
  · have hcomments : ∀ c ∈ behind, c.kind = .comment := by
      simpa [List.filter_eq_nil_iff] using hnil
    refine .inl ⟨hcomments, List.find?_eq_none.2 fun c hc => ?_⟩
    simp [hcomments c hc]
  · obtain ⟨between, rest, rfl, hbetween, -, hrest⟩ := List.filter_eq_cons_iff.1 hcomma
    have hbetween : ∀ c ∈ between, c.kind = .comment := by simpa using hbetween
    refine .inr ⟨between, comma, rest, rfl, hbetween, hcommakind, ?_, ?_⟩
    · simpa [List.filter_eq_nil_iff] using hrest
    · rw [List.find?_append, List.find?_eq_none.2 fun c hc => by simp [hbetween c hc],
        List.find?_cons_of_pos (by simp [hcommakind]), Option.none_or]

/-- What the parameter is inserted behind. -/
theorem addsParameter_of_injectParameter? (hn : list.Within lo hi) (hformed : list.WellFormed cs)
    (hchildren : ∀ c ∈ list.children, c.WellFormed cs) (hkind : list.kind = .formalParameters)
    (h : injectParameter? cs list = some r) : AddsParameter list r := by
  obtain ⟨items, ⟨first, closing, hlist, hopening, -, hclosing, -⟩, hcommas⟩ :=
    hformed.parameters hkind
  have hparts : list.parts = items.filter (·.isPart) := by
    rw [parts, hlist, List.filter_cons_of_neg (by simp [isPart_of_token hopening]),
      List.filter_append, List.filter_singleton, isPart_of_token hclosing]
    simp
  rw [injectParameter?] at h
  split at h
  · cases h
  rw [hparts, routeParameter_eq] at h
  cases hlast : (items.filter (·.isPart)).getLast? with
  | none =>
    rw [hlast, hlist, List.find?_cons_of_pos (by simp [hopening])] at h
    obtain rfl := Option.some.inj h
    have hnone : ∀ c ∈ items, c.isPart = false := by
      simpa [List.filter_eq_nil_iff] using List.getLast?_eq_none_iff.1 hlast
    exact .only hlist hopening ⟨items, closing, rfl, comments_of_isCommaList hcommas hnone, hclosing⟩
  | some last =>
    simp only [hlast] at h
    obtain ⟨before, behind, rfl, hpart, hnone⟩ := exists_of_getLast?_parts hlast
    have hwhole : list.children = (first :: before) ++ last :: (behind ++ [closing]) := by
      rw [hlist]
      simp
    have hclosingkind : (closing.kind == .token ",") = false := by simp [hclosing]
    rw [commaBehind?_eq hn hchildren hwhole hpart, List.find?_append,
      List.find?_singleton, hclosingkind] at h
    rcases comments_of_behind hcommas hpart hnone with
      ⟨hcomments, hfind⟩ | ⟨between, comma, rest, rfl, hbetween, hcomma, hrest, hfind⟩
    · simp only [hfind, Option.none_or, Bool.false_eq_true, if_false] at h
      obtain rfl := Option.some.inj h
      exact .last hwhole hpart ⟨behind, closing, rfl, hcomments, hclosing⟩
    · simp only [hfind, Option.some_or] at h
      obtain rfl := Option.some.inj h
      have hwhole : list.children = (first :: before) ++ last ::
          (between ++ comma :: (rest ++ [closing])) := by
        rw [hwhole]
        simp
      exact .comma hwhole hpart hbetween hcomma ⟨rest, closing, rfl, hrest, hclosing⟩

theorem newConstructor_adds : AddsConstructor body (newConstructor cs body) := by
  refine ⟨memberIndent cs body, ?_⟩
  have htext : (constructorText (memberIndent cs body)).toList =
      '\n' :: (List.replicate (memberIndent cs body) ' ' ++
        "constructor(private activatedRoute: ActivatedRoute) \x7b\x7d\n".toList) := by
    rw [constructorText, routeParameter_eq]
    simp
  rw [newConstructor, ← String.toList_inj.1 (htext.trans String.toList_ofList.symm)]

theorem extendNames_adds : AddsName names (extendNames names) := by
  rw [extendNames]
  cases hlast : (names.partsOf .importSpecifier).getLast? with
  | none => exact .only (List.getLast?_eq_none_iff.1 hlast)
  | some last => exact .last hlast

/-! ### Where it is inserted -/

/-- An insertion at a place where a text can be cut. -/
structure CanInsert (cs : List Char) (r : Replacement) : Prop where
  insertion : IsInsertion r
  addressable : Addressable cs r.range

theorem canInsert_insert {a b : List Char} {pos : Nat} (text : String) (hcs : cs = a ++ b)
    (ha : byteLength a = pos) : CanInsert cs (.insert pos text) := by
  refine ⟨rfl, addressable_iff.2 ⟨a, [], b, by simpa using hcs, ha, rfl⟩⟩

theorem canInsert_behind (text : String) (h : n.WellFormed cs) :
    CanInsert cs (.insert n.span.stop text) := by
  obtain ⟨front, back, hcs, hstart, hstop⟩ := h.parts
  exact canInsert_insert text hcs (by rw [byteLength_append, hstart, hstop])

theorem canInsert_before (text : String) (h : n.WellFormed cs) :
    CanInsert cs (.insert n.span.start text) := by
  obtain ⟨front, back, hcs, hstart, -⟩ := h.parts
  rw [List.append_assoc] at hcs
  exact canInsert_insert text hcs hstart

/-- Insertions at places of their own are all made. -/
theorem applyEdits_of_apart {text : String} {rs : List Replacement}
    (hrs : ∀ r ∈ rs, CanInsert text.toList r)
    (hp : rs.Pairwise fun q r => q.range.start ≠ r.range.start) : ∃ done applied,
      applied.Perm rs ∧ applyEdits text rs = .ok ⟨done, applied, []⟩ ∧
        simultaneous text.toList rs = some done.toList := by
  have haddr : ∀ r ∈ rs, Addressable text.toList r.range := fun r hr => (hrs r hr).addressable
  have ho : ∀ r ∈ rs, r.range.start ≤ r.range.stop := fun r hr => (haddr r hr).ordered
  have hno : rs.Pairwise fun q r => q.range.overlaps r.range = false := by
    refine hp.imp_of_mem fun {q r} hq hr hne => (overlaps_eq_false (ho q hq) (ho r hr)).2 ?_
    have hqins : q.range.start = q.range.stop := (hrs q hq).insertion
    have hrins : r.range.start = r.range.stop := (hrs r hr).insertion
    refine ⟨by omega, fun h => hne (by rw [h])⟩
  have hleft := leftOut_eq_nil ho hno
  have hperm := made_append_leftOut_perm rs
  rw [hleft, List.append_nil] at hperm
  have happly := applyEdits_eq haddr
  rw [hleft] at happly
  refine ⟨_, made rs, hperm, happly, ?_⟩
  rw [String.toList_ofList, ← (cutInPlace_made haddr).2]
  exact simultaneous_perm hperm.symm (made_apart ho)

/-- An insertion into a node, at one of its sites. -/
def InsertsAt (cs : List Char) (n : Node) (r : Replacement) : Prop :=
  CanInsert cs r ∧ IsSite r.range.start n

section
variable {opening closing : String} (hn : n.Within lo hi)
  (hformed : ∀ c ∈ n.children, c.WellFormed cs) (hencloses : n.Encloses opening items closing)
  (hne : opening ≠ "" ∧ closing ≠ "")

include hn hformed hencloses hne

/-- Something can be inserted behind all children of a list but the last. -/
theorem insertsAt_behind {x : Node} (text : String) (hx : x ∈ n.children)
    (hkind : x.kind ≠ .token closing) : InsertsAt cs n (.insert x.span.stop text) := by
  refine ⟨canInsert_behind text (hformed x hx), ?_⟩
  obtain ⟨first, last, hchildren, hopening, hstart, hclosing, hstop⟩ := hencloses
  refine isSite_of_encloses hn hformed hchildren hopening hstart hclosing hstop hne ?_
  rw [hchildren, List.mem_cons, List.mem_append, List.mem_singleton] at hx
  rcases hx with hx | hx | rfl
  · exact .inl hx
  · exact .inr hx
  · exact absurd hclosing hkind

/-- Something can be inserted behind a brace. -/
theorem insertsAt_opening (text : String) (hopening : byteLength opening.toList = 1)
    (hdiffer : opening ≠ closing) : InsertsAt cs n (.insert (n.span.start + 1) text) := by
  have henc := hencloses
  obtain ⟨first, last, hchildren, hkind, hstart, -⟩ := hencloses
  have hmem : first ∈ n.children := by simp [hchildren]
  have hstop := (hformed first hmem).length_token hkind
  rw [hopening, hstart] at hstop
  rw [← hstop]
  refine insertsAt_behind hn hformed henc hne text hmem ?_
  rw [hkind]
  simpa using hdiffer

end

theorem AddsParameter.insertsAt (h : AddsParameter list r) (hlist : list.Within lo hi)
    (hkind : list.kind = .formalParameters) (hformed : list.WellFormed cs)
    (hchildren : ∀ c ∈ list.children, c.WellFormed cs) : InsertsAt cs list r := by
  obtain ⟨items, hencloses, -⟩ := hformed.parameters hkind
  have hbehind {x : Node} (text : String) (hx : x ∈ list.children) (hx' : x.kind ≠ .token ")") :=
    insertsAt_behind hlist hchildren hencloses (by decide) text hx hx'
  cases h with
  | only hlist hopening _ => exact hbehind _ (by simp [hlist]) (by simp [hopening])
  | last hlist hlast _ =>
    refine hbehind _ (by simp [hlist]) fun hclosing => ?_
    rw [isPart_of_token hclosing] at hlast
    cases hlast
  | comma hlist _ _ hcomma _ => exact hbehind _ (by simp [hlist]) (by simp [hcomma])

theorem AddsConstructor.insertsAt (h : AddsConstructor body r) (hbody : body.Within lo hi)
    (hkind : body.kind = .classBody) (hformed : body.WellFormed cs)
    (hchildren : ∀ c ∈ body.children, c.WellFormed cs) : InsertsAt cs body r := by
  obtain ⟨items, hencloses⟩ := hformed.body hkind
  obtain ⟨indent, rfl⟩ := h
  exact insertsAt_opening hbody hchildren hencloses (by decide) _ rfl (by decide)

theorem AddsName.insertsAt (h : AddsName names r) (hnames : names.Within lo hi)
    (hkind : names.kind = .namedImports) (hformed : names.WellFormed cs)
    (hchildren : ∀ c ∈ names.children, c.WellFormed cs) : InsertsAt cs names r := by
  obtain ⟨items, hencloses⟩ := hformed.names hkind
  cases h with
  | only _ => exact insertsAt_opening hnames hchildren hencloses (by decide) _ rfl (by decide)
  | @last last hlast =>
    obtain ⟨hpart, hspecifier⟩ := mem_partsOf.1 (List.mem_of_getLast? hlast)
    refine insertsAt_behind hnames hchildren hencloses (by decide) _ (mem_parts.1 hpart).1 ?_
    rw [hspecifier]
    nofun

end
end RouterShift.TypeScript
