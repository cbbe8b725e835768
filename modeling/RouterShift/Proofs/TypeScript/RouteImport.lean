import RouterShift.Proofs.TypeScript.HookOnce

/-! The import of the active route. Once the hook is migrated, a file imports what it has imported
    before, with one name more in some import, or with one import more, or with none of both. So the
    type is there as a value, unless it was there already but only as a type or under another name
    (`bindsRoute_of_migrateParamsHook`). -/

namespace RouterShift.TypeScript

open Grammar.Tree Text Edit

/-! ### What a file imports -/

/-- An import from the router. -/
def FromRouter (cs : List Char) (s : Node) : Prop :=
  s.kind = .importStatement ∧ trim isQuote (s.fieldText cs .source) = "@angular/router".toList

instance (cs : List Char) : DecidablePred (FromRouter cs) := fun _ =>
  inferInstanceAs (Decidable (_ ∧ _))

/-- The name that a specifier brings into the file. -/
def localName (cs : List Char) (specifier : Node) : List Char :=
  match specifier.child? .alias with
  | some name => name.text cs
  | none => specifier.fieldText cs .name

/-- A clause of an import brings a name into the file as a value: for what the module exports by
    default, for the whole module, or in braces and there not as a type only. -/
def BindsValue (cs : List Char) (clause : Node) (name : String) : Prop :=
  ∃ part ∈ clause.parts,
    part.kind = .identifier ∧ part.text cs = name.toList ∨
    part.kind = .namespaceImport ∧
      (∃ n ∈ part.parts, n.kind = .identifier ∧ n.text cs = name.toList) ∨
    part.kind = .namedImports ∧ ∃ s ∈ part.parts, s.kind = .importSpecifier ∧
      s.hasToken "type" = false ∧ localName cs s = name.toList

instance (cs : List Char) (clause : Node) (name : String) : Decidable (BindsValue cs clause name) :=
  inferInstanceAs (Decidable (∃ part ∈ clause.parts, _ ∧ _ ∨ _ ∧ (∃ n ∈ part.parts, _) ∨
    _ ∧ ∃ s ∈ part.parts, _))

/-- The braces of an import from the router. -/
def routerNames? (cs : List Char) (s : Node) : Option Node :=
  if FromRouter cs s then (s.part? .importClause).bind (·.part? .namedImports) else none

/-- A specifier for the active route. -/
def isRoute (cs : List Char) (n : Node) : Bool :=
  n.kind == .importSpecifier && n.fieldText cs .name == "ActivatedRoute".toList

/-- The specifiers for the active route in an import from the router. -/
def routesOf (cs : List Char) (s : Node) : List Node :=
  match routerNames? cs s with
  | some names => names.children.filter (isRoute cs)
  | none => []

section
variable {cs : List Char} {n names : Node} {fresh : List Node}

theorem kind_of_routerNames? {s : Node} (hnames : routerNames? cs s = some names) :
    names.kind = .namedImports := by
  rw [routerNames?] at hnames
  split at hnames
  · obtain ⟨clause, -, hnames⟩ := Option.bind_eq_some_iff.1 hnames
    exact (mem_of_part? hnames).2
  · cases hnames

theorem isPart_of_isRoute (h : isRoute cs n = true) : n.isPart = true := by
  rw [isRoute, Bool.and_eq_true, beq_iff_eq] at h
  exact isPart_of_kind h.1 (by decide) (by simp)

theorem takesRoute_iff : TakesRoute cs names ↔ ∃ n ∈ names.children, isRoute cs n = true := by
  simp only [TakesRoute, mem_partsOf, mem_parts]
  constructor
  · rintro ⟨n, ⟨⟨hn, -⟩, hkind⟩, hname⟩
    exact ⟨n, hn, by rw [isRoute, hkind, hname, beq_self_eq_true, beq_self_eq_true, Bool.and_self]⟩
  · rintro ⟨n, hn, hroute⟩
    have hpart := isPart_of_isRoute hroute
    rw [isRoute, Bool.and_eq_true, beq_iff_eq, beq_iff_eq] at hroute
    exact ⟨n, ⟨⟨hn, hpart⟩, hroute.1⟩, hroute.2⟩

theorem countP_eq_of_forall₂ {α β : Type} {R : α → β → Prop} {p : α → Bool} {q : β → Bool}
    {as : List α} {bs : List β} (h : List.Forall₂ R as bs) (hpq : ∀ a b, R a b → p a = q b) :
    as.countP p = bs.countP q := by
  induction h with
  | nil => rfl
  | @cons a b as bs hab _ ih => rw [List.countP_cons, List.countP_cons, ih, hpq a b hab]

/-- One of the new names in braces is for the active route. -/
theorem countP_of_brings (hbrings : BringsName cs fresh) : fresh.countP (isRoute cs) = 1 := by
  obtain ⟨s, honly, hkind, hname, -⟩ := hbrings
  have hroute : isRoute cs s = true := by
    rw [isRoute, hkind, hname, beq_self_eq_true, beq_self_eq_true, Bool.and_self]
  have hparts : fresh.countP (isRoute cs) = (fresh.filter (·.isPart)).countP (isRoute cs) := by
    rw [List.countP_filter]
    refine List.countP_congr fun n _ => ?_
    rw [Bool.and_eq_true]
    exact ⟨fun hn => ⟨hn, isPart_of_isRoute hn⟩, fun hn => hn.1⟩
  rw [hparts, onlyPart?_eq_some.1 honly, List.countP_cons_of_pos hroute, List.countP_nil]

/-- What is read off the nodes of a list that are of two sorts, of each sort apart. -/
theorem length_flatMap_filter {α β : Type} (p : α → Bool) (f : α → List β) (l : List α) :
    (l.flatMap f).length =
      ((l.filter p).flatMap f).length + ((l.filter (!p ·)).flatMap f).length := by
  rw [← List.length_append, ← List.flatMap_append]
  exact ((List.filter_append_perm p l).flatMap_right f).length_eq.symm

end

section
variable [Reader]

namespace SourceFile

/-- An import from the router that is not for types alone brings the name of the active route into
    the file as a value. -/
def BindsRoute (file : SourceFile) : Prop :=
  ∃ s ∈ file.nodes, FromRouter file.text.toList s ∧ s.hasToken "type" = false ∧
    ∃ clause ∈ s.parts, clause.kind = .importClause ∧
      BindsValue file.text.toList clause "ActivatedRoute"

instance (file : SourceFile) : Decidable file.BindsRoute :=
  inferInstanceAs (Decidable (∃ s ∈ file.nodes, _ ∧ _ ∧ ∃ clause ∈ s.parts, _))

/-- All specifiers of the file for the active route. -/
def routes (file : SourceFile) : List Node := file.nodes.flatMap (routesOf file.text.toList)

section
variable {file done : SourceFile} {rs : List Replacement} {r : Replacement}
  {n n' s s' clause clause' names names' : Node} {name : String}

theorem routerNames?_eq_some (hs : s ∈ file.nodes) :
    routerNames? file.text.toList s = some names ↔ file.TakesFromRouter s names := by
  rw [routerNames?, TakesFromRouter, mem_parts_file, ← Option.bind_eq_some_iff]
  split
  · next hfrom => simp [hs, hfrom.1, hfrom.2, isPart_of_kind hfrom.1 (by decide) (by simp)]
  · next hfrom =>
    constructor
    · intro h
      cases h
    · rintro ⟨-, hkind, hsource, -⟩
      exact absurd ⟨hkind, hsource⟩ hfrom

theorem routes_eq_nil_iff : file.routes = [] ↔ ∀ statement names,
    file.TakesFromRouter statement names → ¬ TakesRoute file.text.toList names := by
  rw [routes, List.flatMap_eq_nil_iff]
  constructor
  · intro hnone statement names hfrom htakes
    have hs := (mem_parts_file.1 hfrom.1).1
    have hnil := hnone statement hs
    rw [routesOf, (routerNames?_eq_some hs).2 hfrom] at hnil
    obtain ⟨n, hn, hroute⟩ := takesRoute_iff.1 htakes
    exact List.filter_eq_nil_iff.1 hnil n hn hroute
  · intro hnone s hs
    rw [routesOf]
    split
    · next names hnames =>
      refine List.filter_eq_nil_iff.2 fun n hn hroute => ?_
      exact hnone s names ((routerNames?_eq_some hs).1 hnames) (takesRoute_iff.2 ⟨n, hn, hroute⟩)
    · rfl

/-! ### Imports that are found again -/

theorem Traces.fromRouter_iff (ht : file.Traces done rs s s') (h : Reader.Sound)
    (hg : file.GrowsTo done rs) :
    FromRouter done.text.toList s' ↔ FromRouter file.text.toList s := by
  rw [FromRouter, FromRouter, ht.grown.kind]
  exact and_congr_right fun _ => ht.fieldText_iff h hg (P := (trim isQuote · = _))
    (fun _ => not_hasBracket_of_trim) .source

theorem Traces.localName_iff (ht : file.Traces done rs s s') (h : Reader.Sound)
    (hg : file.GrowsTo done rs) {word : String} (hword : ¬ HasBracket word.toList) :
    localName done.text.toList s' = word.toList ↔ localName file.text.toList s = word.toList := by
  rw [localName, localName]
  have hrel := ht.rel_child? .alias
  generalize s.child? .alias = a, s'.child? .alias = a' at hrel ⊢
  cases hrel with
  | none => exact ht.fieldText_eq_iff h hg hword .name
  | some hta => exact hta.text_iff h hg (P := (· = word.toList)) fun _ hcs => hcs ▸ hword

/-- A clause that brings a name into the file still does. -/
theorem Traces.bindsValue (ht : file.Traces done rs clause clause') (h : Reader.Sound)
    (hg : file.GrowsTo done rs) (hkind : clause.kind = .importClause)
    (hname : ¬ HasBracket name.toList) (hbinds : BindsValue file.text.toList clause name) :
    BindsValue done.text.toList clause' name := by
  obtain ⟨part, hpart, hbinds⟩ := hbinds
  obtain ⟨part', hpart', htp⟩ := exists_of_mem_steps
    (ht.forall₂_parts (by simp [IsBracketed, hkind])) hpart
  refine ⟨part', hpart', ?_⟩
  have hpartkind := htp.grown.kind
  have htext {n n' : Node} (htn : file.Traces done rs n n') :=
    htn.text_iff h hg (P := (· = name.toList)) fun _ hcs => hcs ▸ hname
  rcases hbinds with ⟨hkind, hpname⟩ | ⟨hkind, n, hn, hnkind, hnname⟩ |
    ⟨hkind, s, hs, hskind, hvalue, hsname⟩
  · exact .inl ⟨hpartkind.trans hkind, (htext htp).2 hpname⟩
  · obtain ⟨n', hn', htn⟩ := exists_of_mem_steps
      (htp.forall₂_parts (by simp [IsBracketed, hkind])) hn
    exact .inr (.inl ⟨hpartkind.trans hkind, n', hn', htn.grown.kind.trans hnkind,
      (htext htn).2 hnname⟩)
  · obtain ⟨hsmem, hspart⟩ := mem_parts.1 hs
    obtain ⟨s', hs', hts⟩ := exists_of_mem_steps htp.forall₂_old hsmem
    refine .inr (.inr ⟨hpartkind.trans hkind, s', ?_, hts.grown.kind.trans hskind, ?_, ?_⟩)
    · exact mem_parts.2 ⟨mem_of_mem_oldAmong hs', hts.grown.isPart.trans hspart⟩
    · rw [hts.hasToken_eq (by simp [IsBracketed, hskind]), hvalue]
    · exact (hts.localName_iff h hg hname).2 hsname

/-- A clause that brings a name into the file did before, or a name in its braces is new. -/
theorem Traces.of_bindsValue (ht : file.Traces done rs clause clause') (h : Reader.Sound)
    (hg : file.GrowsTo done rs) (hkind : clause.kind = .importClause)
    (hname : ¬ HasBracket name.toList) (hbinds : BindsValue done.text.toList clause' name) :
    BindsValue file.text.toList clause name ∨ ∃ names ∈ clause.parts, names.kind = .namedImports ∧
      ∃ r ∈ rs, IsSite r.range.start names := by
  obtain ⟨part', hpart', hbinds⟩ := hbinds
  obtain ⟨part, hpart, htp⟩ := exists_of_forall₂
    (ht.forall₂_parts (by simp [IsBracketed, hkind])) hpart'
  have hpartkind := htp.grown.kind
  have htext {n n' : Node} (htn : file.Traces done rs n n') :=
    htn.text_iff h hg (P := (· = name.toList)) fun _ hcs => hcs ▸ hname
  rcases hbinds with ⟨hkind, hpname⟩ | ⟨hkind, n', hn', hnkind, hnname⟩ |
    ⟨hkind, s', hs', hskind, hvalue, hsname⟩
  · exact .inl ⟨part, hpart, .inl ⟨hpartkind.symm.trans hkind, (htext htp).1 hpname⟩⟩
  · have hkind := hpartkind.symm.trans hkind
    obtain ⟨n, hn, htn⟩ := exists_of_forall₂ (htp.forall₂_parts (by simp [IsBracketed, hkind])) hn'
    exact .inl ⟨part, hpart, .inr (.inl ⟨hkind, n, hn, htn.grown.kind.symm.trans hnkind,
      (htext htn).1 hnname⟩)⟩
  · have hkind := hpartkind.symm.trans hkind
    obtain ⟨hsmem, hspart⟩ := mem_parts.1 hs'
    rcases mem_old_or_new rs hsmem with hold | hnew
    · obtain ⟨s, hs, hts⟩ := exists_of_forall₂ htp.forall₂_old hold
      have hskind := hts.grown.kind.symm.trans hskind
      refine .inl ⟨part, hpart, .inr (.inr ⟨hkind, s, ?_, hskind, ?_, ?_⟩)⟩
      · exact mem_parts.2 ⟨hs, hts.grown.isPart.symm.trans hspart⟩
      · rw [← hts.hasToken_eq (by simp [IsBracketed, hskind]), hvalue]
      · exact (hts.localName_iff h hg hname).1 hsname
    · refine .inr ⟨part, hpart, hkind, ?_⟩
      by_contra hsite
      rw [htp.grown.new_eq_nil hsite] at hnew
      cases hnew

theorem bindsRoute_of_brings {fresh : List Node} (hfrom : file.TakesFromRouter s names)
    (hvalue : s.hasToken "type" = false) (hbrings : BringsName file.text.toList fresh)
    (hfresh : ∀ x ∈ fresh, x ∈ names.children) : file.BindsRoute := by
  obtain ⟨hs, hkind, hsource, clause, hclause, hnames⟩ := hfrom
  obtain ⟨hclause, hclausekind⟩ := mem_of_part? hclause
  obtain ⟨hnames, hnameskind⟩ := mem_of_part? hnames
  obtain ⟨x, honly, hxkind, hname, halias, hxvalue⟩ := hbrings
  obtain ⟨hx, hpart⟩ := mem_of_onlyPart? honly
  refine ⟨s, (mem_parts_file.1 hs).1, ⟨hkind, hsource⟩, hvalue, clause, hclause, hclausekind, names, hnames,
    .inr (.inr ⟨hnameskind, x, mem_parts.2 ⟨hfresh x hx, hpart⟩, hxkind, hxvalue, ?_⟩)⟩
  rw [localName, halias]
  exact hname

/-! ### The insertion for the import -/

theorem GetsImport.routes_eq_nil (hroute : file.GetsImport (some r)) : file.routes = [] := by
  rw [routes_eq_nil_iff]
  cases hroute with
  | name hnone _ _ _ => exact hnone
  | statement hnone _ _ => exact hnone

section
variable {given : List (Option Replacement)} {route : Option Replacement}
  (hinserts : file.Inserts given route done.text) (h : Reader.Sound)
  (hrs : ∀ r, r ∈ rs ↔ r ∈ given.reduceOption ++ route.toList)

include hinserts h hrs

/-- What is inserted in no place of a class is what is inserted for the import. -/
theorem Inserts.eq_some_route (hr : r ∈ rs)
    (hout : ∀ c ∈ file.classes, ∀ p, HasPlace c p → p ≠ r.range.start) : route = some r := by
  rcases List.mem_append.1 ((hrs r).1 hr) with hgiven | hroute
  · obtain ⟨c, hc, hgets⟩ := exists_of_mem_given hinserts.classes hgiven
    have hclass := (mem_hookClasses.1 hc).1
    exact absurd rfl (hout c hclass _ (hasPlace_of_gets h hclass hgets).2)
  · exact Option.mem_toList.1 hroute

theorem Inserts.eq_some_of_names (hr : r ∈ rs) (hnames : names ∈ subtreesAmong file.nodes)
    (hkind : names.kind = .namedImports) (hsite : IsSite r.range.start names) : route = some r :=
  hinserts.eq_some_route h hrs hr fun _ hc _ hp => ne_of_names h hc hp hnames hkind hsite

theorem Inserts.eq_some_of_between (hr : r ∈ rs) (hbetween : IsBetween file.nodes r) :
    route = some r := by
  refine hinserts.eq_some_route h hrs hr fun c hc p hp heq => ?_
  have hmem := (mem_classes.1 hc).1
  have hinside := hp.inside (within_of_mem h hmem)
  rcases hbetween.off h hmem with hle | hle <;> omega

variable (hg : file.GrowsTo done rs)
include hg

theorem Inserts.routes_eq_nil_of_new (hnew : s ∈ newAmong rs done.nodes) : file.routes = [] := by
  have himport := hg.grown.2.2
  split at himport
  · next hbetween =>
    obtain ⟨r, hr, hbetween⟩ := hbetween
    have hroute := hinserts.imported
    rw [hinserts.eq_some_of_between h hrs hr hbetween] at hroute
    exact hroute.routes_eq_nil
  · rw [himport] at hnew
    cases hnew

/-- The active route is there as a value exactly if it was before, or no specifier was for it. -/
theorem Inserts.bindsRoute_iff : done.BindsRoute ↔ file.BindsRoute ∨ file.routes = [] := by
  have hname : ¬ HasBracket "ActivatedRoute".toList := by decide +kernel
  have hkeeps {s s' clause : Node} (hts : file.Traces done rs s s')
      (hfrom : FromRouter file.text.toList s) (hclause : clause ∈ s.parts) :
      ∃ clause' ∈ s'.parts, file.Traces done rs clause clause' :=
    exists_of_mem_steps (hts.forall₂_parts (by simp [IsBracketed, hfrom.1])) hclause
  constructor
  · rintro ⟨s', hs', hfrom, hvalue, clause', hclause', hkind, hbinds⟩
    rcases mem_old_or_new rs hs' with hold | hnew
    · obtain ⟨s, hs, hts⟩ := exists_of_forall₂ hg.forall₂ hold
      have hfrom := (hts.fromRouter_iff h hg).1 hfrom
      have hplain : ¬ IsBracketed s.kind := by simp [IsBracketed, hfrom.1]
      obtain ⟨clause, hclause, htc⟩ := exists_of_forall₂ (hts.forall₂_parts hplain) hclause'
      have hkind := htc.grown.kind.symm.trans hkind
      rcases htc.of_bindsValue h hg hkind hname hbinds with hbinds | ⟨names, hnames, hnkind, r, hr,
        hsite⟩
      · rw [hts.hasToken_eq hplain] at hvalue
        exact .inl ⟨s, hs, hfrom, hvalue, clause, hclause, hkind, hbinds⟩
      · have hmem := child_mem_subtreesAmong htc.mem (mem_parts.1 hnames).1
        have hroute := hinserts.imported
        rw [hinserts.eq_some_of_names h hrs hr hmem hnkind hsite] at hroute
        exact .inr hroute.routes_eq_nil
    · exact .inr (hinserts.routes_eq_nil_of_new h hrs hg hnew)
  · rintro (⟨s, hs, hfrom, hvalue, clause, hclause, hkind, hbinds⟩ | hnil)
    · obtain ⟨s', hs', hts⟩ := exists_of_mem_steps hg.forall₂ hs
      obtain ⟨clause', hclause', htc⟩ := hkeeps hts hfrom hclause
      refine ⟨s', mem_of_mem_oldAmong hs', (hts.fromRouter_iff h hg).2 hfrom, ?_, clause', hclause',
        htc.grown.kind.trans hkind, htc.bindsValue h hg hkind hname hbinds⟩
      rw [hts.hasToken_eq (by simp [IsBracketed, hfrom.1]), hvalue]
    · have hroute := hinserts.imported
      cases hsome : route with
      | none =>
        rw [hsome] at hroute
        cases hroute with
        | nothing hfrom htakes => exact absurd htakes (routes_eq_nil_iff.1 hnil _ _ hfrom)
      | some r =>
        rw [hsome] at hroute
        have hr : r ∈ rs := (hrs r).2 (List.mem_append_right _ (by simp [hsome]))
        obtain ⟨s, names, fresh, hfrom, hvalue, hbrings, hfresh⟩ := hroute.exists_brings h hg hr
        exact bindsRoute_of_brings hfrom hvalue hbrings hfresh

end

/-! ### How many specifiers there are -/

/-- Something is inserted into the braces of an import from the router. -/
def GainsName (cs : List Char) (rs : List Replacement) (s : Node) : Prop :=
  ∃ names ∈ routerNames? cs s, ∃ r ∈ rs, IsSite r.range.start names

instance (cs : List Char) (rs : List Replacement) : DecidablePred (GainsName cs rs) := fun _ =>
  inferInstanceAs (Decidable (∃ names ∈ _, _))

theorem Traces.isRoute_eq (ht : file.Traces done rs n n') (h : Reader.Sound)
    (hg : file.GrowsTo done rs) :
    isRoute file.text.toList n = isRoute done.text.toList n' := by
  rw [isRoute, isRoute, ht.grown.kind, Bool.eq_iff_iff]
  simp only [Bool.and_eq_true, beq_iff_eq]
  rw [ht.fieldText_eq_iff h hg (by decide +kernel)]

/-- Braces have one specifier more for the active route if something is inserted into them. -/
theorem Traces.countP_isRoute (ht : file.Traces done rs names names') (h : Reader.Sound)
    (hg : file.GrowsTo done rs) (hkind : names.kind = .namedImports) :
    names'.children.countP (isRoute done.text.toList) =
      names.children.countP (isRoute file.text.toList) +
        if ∃ r ∈ rs, IsSite r.range.start names then 1 else 0 := by
  have hold := countP_eq_of_forall₂ ht.forall₂_old fun n n' hn => hn.isRoute_eq h hg
  rw [List.countP_eq_countP_filter_add names'.children _ (!isNew rs ·), hold, oldAmong]
  simp only [Bool.not_not, Nat.add_left_cancel_iff]
  split
  · next hsite =>
    have hbrings := ht.grown.brings hsite
    rw [hkind] at hbrings
    exact countP_of_brings hbrings
  · next hsite =>
    have hnil : names'.children.filter (isNew rs ·) = [] := ht.grown.new_eq_nil hsite
    rw [hnil, List.countP_nil]

theorem Traces.rel_routerNames? (ht : file.Traces done rs s s') (h : Reader.Sound)
    (hg : file.GrowsTo done rs) : Option.Rel (file.Traces done rs)
      (routerNames? file.text.toList s) (routerNames? done.text.toList s') := by
  rw [routerNames?, routerNames?]
  by_cases hfrom : FromRouter file.text.toList s
  · rw [if_pos hfrom, if_pos ((ht.fromRouter_iff h hg).2 hfrom)]
    have hrel := ht.rel_part? (by simp [IsBracketed, hfrom.1]) .importClause
    cases hclause : s.part? .importClause with
    | none =>
      rw [hclause] at hrel
      generalize s'.part? .importClause = clause' at hrel ⊢
      cases hrel
      exact .none
    | some clause =>
      obtain ⟨clause', hclause', htc⟩ := exists_of_rel_some hrel hclause
      rw [hclause']
      exact htc.rel_part? (by simp [IsBracketed, (mem_of_part? hclause).2]) .namedImports
  · rw [if_neg hfrom, if_neg (mt (ht.fromRouter_iff h hg).1 hfrom)]
    exact .none

theorem Traces.length_routesOf (ht : file.Traces done rs s s') (h : Reader.Sound)
    (hg : file.GrowsTo done rs) : (routesOf done.text.toList s').length =
      (routesOf file.text.toList s).length +
        if GainsName file.text.toList rs s then 1 else 0 := by
  have hrel := ht.rel_routerNames? h hg
  cases hnames : routerNames? file.text.toList s with
  | none =>
    have hno : ¬ GainsName file.text.toList rs s := by
      rintro ⟨names, hmem, -⟩
      rw [hnames] at hmem
      cases hmem
    cases hnames' : routerNames? done.text.toList s' with
    | none => simp only [routesOf, hnames, hnames', if_neg hno, Nat.add_zero]
    | some names' => rw [hnames, hnames'] at hrel; cases hrel
  | some names =>
    obtain ⟨names', hnames', htn⟩ := exists_of_rel_some hrel hnames
    have hgains : GainsName file.text.toList rs s ↔ ∃ r ∈ rs, IsSite r.range.start names := by
      rw [GainsName, hnames]
      simp
    simp only [routesOf, hnames, hnames', ← List.countP_eq_length_filter, hgains]
    exact htn.countP_isRoute h hg (kind_of_routerNames? hnames)

/-- Among nodes that are found again, as many specifiers are new as imports gain a name. -/
theorem length_flatMap_routesOf {ns ns' : List Node}
    (hns : List.Forall₂ (file.Traces done rs) ns ns') (h : Reader.Sound)
    (hg : file.GrowsTo done rs) : (ns'.flatMap (routesOf done.text.toList)).length =
      (ns.flatMap (routesOf file.text.toList)).length +
        ns.countP fun s => GainsName file.text.toList rs s := by
  induction hns with
  | nil => rfl
  | cons ht _ ih =>
    rw [List.flatMap_cons, List.flatMap_cons, List.length_append, List.length_append, ih,
      ht.length_routesOf h hg, List.countP_cons]
    simp only [decide_eq_true_eq]
    omega

/-- There is one specifier for the active route in an import that is new. -/
theorem length_of_bringsImport {ns : List Node} (hbrings : BringsImport file.text.toList ns) :
    (ns.flatMap (routesOf file.text.toList)).length = 1 := by
  obtain ⟨s, honly, hkind, hsource, -, clause, hclause, names, hnames, hbrings⟩ := hbrings
  have hparts : routerNames? file.text.toList s = some names := by
    rw [routerNames?, if_pos ⟨hkind, hsource⟩, Option.bind_eq_some_iff]
    exact ⟨clause, hclause, hnames⟩
  have hothers : (ns.filter (!·.isPart)).flatMap (routesOf file.text.toList) = [] := by
    refine List.flatMap_eq_nil_iff.2 fun n hn => ?_
    have hno : ¬ FromRouter file.text.toList n := fun hfrom => by
      simp [isPart_of_kind hfrom.1 (by decide) (by simp)] at hn
    rw [routesOf, routerNames?, if_neg hno]
  rw [length_flatMap_filter (·.isPart), hothers, onlyPart?_eq_some.1 honly, List.flatMap_cons,
    List.flatMap_nil, List.append_nil, routesOf, hparts]
  simp only [← List.countP_eq_length_filter, countP_of_brings hbrings, List.length_nil]

/-- The specifiers for the active route are those from before, one in each import that gains a name,
    and those in what is new between the statements. -/
theorem GrowsTo.length_routes (hg : file.GrowsTo done rs) (h : Reader.Sound) :
    done.routes.length = file.routes.length +
      (file.nodes.countP fun s => GainsName file.text.toList rs s) +
        ((newAmong rs done.nodes).flatMap (routesOf done.text.toList)).length := by
  rw [routes, length_flatMap_filter (!isNew rs ·)]
  simp only [Bool.not_not]
  exact congrArg (· + _) (length_flatMap_routesOf hg.forall₂ h hg)

section
variable {given : List (Option Replacement)} {route : Option Replacement}
  (hinserts : file.Inserts given route done.text) (h : Reader.Sound)
  (hrs : ∀ r, r ∈ rs ↔ r ∈ given.reduceOption ++ route.toList)

include hinserts h hrs

/-- An import that gains a name has the insertion for the import inside. -/
theorem Inserts.exists_of_gainsName (hs : s ∈ file.nodes)
    (hgains : GainsName file.text.toList rs s) :
    ∃ r, route = some r ∧ s.span.start < r.range.start ∧ r.range.start < s.span.stop := by
  obtain ⟨names, hnames, r, hr, hsite⟩ := hgains
  obtain ⟨-, -, -, clause, hclause, hpart⟩ := (routerNames?_eq_some hs).1 hnames
  have hmem : names ∈ s.subtrees := subtrees_trans
    (child_mem_subtrees (mem_parts.1 (mem_of_part? hclause).1).1)
    (child_mem_subtrees (mem_parts.1 (mem_of_part? hpart).1).1)
  obtain ⟨h1, -, h3⟩ := ((within_of_mem h (subset_subtreesAmong hs)).of_mem hmem).between
  have hinside := hsite.inside
  have hkind := kind_of_routerNames? hnames
  refine ⟨r, hinserts.eq_some_of_names h hrs hr (mem_subtreesAmong.2 ⟨s, hs, hmem⟩) hkind hsite, ?_⟩
  omega

/-- No two imports gain a name. -/
theorem Inserts.countP_gainsName (hs : s ∈ file.nodes)
    (hgains : GainsName file.text.toList rs s) :
    (file.nodes.countP fun s => GainsName file.text.toList rs s) = 1 := by
  obtain ⟨r, hroute, hlo, hhi⟩ := hinserts.exists_of_gainsName h hrs hs hgains
  obtain ⟨front, back, hnodes⟩ := List.append_of_mem hs
  have hpairwise := (file.nested h).pairwise
  rw [hnodes, List.pairwise_append, List.pairwise_cons] at hpairwise
  obtain ⟨-, ⟨hback, -⟩, hfront⟩ := hpairwise
  have hno {t : Node} (ht : t ∈ file.nodes)
      (hapart : t.span.stop ≤ s.span.start ∨ s.span.stop ≤ t.span.start) :
      ¬ decide (GainsName file.text.toList rs t) = true := by
    intro hgains'
    obtain ⟨q, hroute', hlo', hhi'⟩ := hinserts.exists_of_gainsName h hrs ht (of_decide_eq_true hgains')
    obtain rfl := Option.some.inj (hroute.symm.trans hroute')
    rcases hapart with hle | hle <;> omega
  have hfrontzero : (front.countP fun s => GainsName file.text.toList rs s) = 0 :=
    List.countP_eq_zero.2 fun t ht =>
      hno (by simp [hnodes, ht]) (.inl (hfront t ht s List.mem_cons_self))
  have hbackzero : (back.countP fun s => GainsName file.text.toList rs s) = 0 :=
    List.countP_eq_zero.2 fun t ht => hno (by simp [hnodes, ht]) (.inr (hback t ht))
  rw [hnodes, List.countP_append, List.countP_cons_of_pos (by simpa using hgains), hfrontzero,
    hbackzero]

/-- No import gains a name, if nothing is inserted in one. -/
theorem Inserts.countP_gainsName_eq_zero (hoff : ∀ r ∈ route, IsBetween file.nodes r) :
    (file.nodes.countP fun s => GainsName file.text.toList rs s) = 0 := by
  refine List.countP_eq_zero.2 fun s hs hgains => ?_
  obtain ⟨r, hr, hlo, hhi⟩ := hinserts.exists_of_gainsName h hrs hs (of_decide_eq_true hgains)
  rcases hoff r hr s hs with hle | hle <;> omega

/-- Afterwards there is one specifier for the active route, if there were not more before. -/
theorem Inserts.length_routes (hg : file.GrowsTo done rs) :
    done.routes.length = max 1 file.routes.length := by
  rw [hg.length_routes h]
  have hroute := hinserts.imported
  have hnew := hg.grown.2.2
  cases hsome : route with
  | none =>
    rw [hsome] at hroute
    cases hroute with
    | nothing hfrom htakes =>
      have hne : file.routes ≠ [] := fun hnil => routes_eq_nil_iff.1 hnil _ _ hfrom htakes
      have hpos := List.length_pos_iff.2 hne
      have hnone : newAmong rs done.nodes = [] := List.eq_nil_iff_forall_not_mem.2 fun s hs =>
        hne (hinserts.routes_eq_nil_of_new h hrs hg hs)
      rw [hinserts.countP_gainsName_eq_zero h hrs (by simp [hsome]), hnone, List.flatMap_nil,
        List.length_nil]
      omega
  | some r =>
    rw [hsome] at hroute
    have hr : r ∈ rs := (hrs r).2 (List.mem_append_right _ (by simp [hsome]))
    have hnil : file.routes.length = 0 := List.length_eq_zero_iff.2 hroute.routes_eq_nil
    cases hroute with
    | @name s names _ hnotaken hfrom hvalue hadds =>
      obtain ⟨hmem, hkind⟩ := hfrom.mem
      have hs := (mem_parts_file.1 hfrom.1).1
      have hsite := (Takes.isSite h hmem (.inr (.inr ⟨hkind, hadds⟩))).2
      have hgains : GainsName file.text.toList rs s :=
        ⟨names, (routerNames?_eq_some hs).2 hfrom, r, hr, hsite⟩
      have hnobetween : ¬ ∃ r ∈ rs, IsBetween file.nodes r := by
        rintro ⟨q, hq, hbetween⟩
        obtain rfl := Option.some.inj
          (hsome.symm.trans (hinserts.eq_some_of_between h hrs hq hbetween))
        have hinside := hsite.inside
        rcases hbetween.off h hmem with hle | hle <;> omega
      -- one import gains the name, and nothing is new between the statements
      rw [if_neg hnobetween] at hnew
      rw [hinserts.countP_gainsName h hrs hs hgains, hnew, List.flatMap_nil, List.length_nil]
      omega
    | @statement first hnotaken htypes hfirst =>
      have hbetween := isBetween_before h (mem_parts_file.1 (List.mem_of_mem_head? hfirst)).1
        "import \x7b ActivatedRoute \x7d from '@angular/router';\n"
      rw [if_pos ⟨_, hr, hbetween⟩] at hnew
      rw [hinserts.countP_gainsName_eq_zero h hrs (by simpa [hsome] using hbetween),
        length_of_bringsImport hnew]
      omega

end

end
end SourceFile

/-- After the hook was migrated the active route can be named as a value exactly if it could before,
    or no specifier was for it; and one specifier is for it, if there were not more before. That is
    so for every reader that keeps to the grammar and finds again what it has read behind insertions
    for the hook. -/
theorem bindsRoute_of_migrateParamsHook {file done : SourceFile} (h : Reader.Sound)
    (hgrows : Reader.Grows) (hhook : ∃ c ∈ file.classes, HasHook file.text.toList c)
    (hdone : file.migrateParamsHook = .ok done) :
    (done.BindsRoute ↔ file.BindsRoute ∨ file.routes = []) ∧
      done.routes.length = max 1 file.routes.length := by
  have hhooked : file.hooked ≠ [] := by
    rw [Ne, SourceFile.hooked_eq_nil_iff h]
    obtain ⟨c, hc, hhas⟩ := hhook
    exact fun hnone => hnone c hc hhas
  obtain ⟨-, given, route, hinserts⟩ := SourceFile.inserts_of_eq_ok h hhooked hdone
  obtain ⟨rs, hg, hrs⟩ := hinserts.exists_growsTo h hgrows
  exact ⟨hinserts.bindsRoute_iff h hrs hg, hinserts.length_routes h hrs hg⟩

end

theorem bindsRoute_of_migrateParamsHook_router :
    let _ : Reader := importReader
    unimportedFile.migrateParamsHook = .ok importedFile ∧ ¬ unimportedFile.BindsRoute ∧
      importedFile.BindsRoute ∧ importedFile.routes.length = 1 := by
  intro _
  have hroutes : unimportedFile.routes = [] := by decide +kernel
  obtain ⟨hbinds, hlength⟩ := bindsRoute_of_migrateParamsHook (grammarOn_sound _)
    importReader_grows (by decide +kernel) migrateParamsHook_unimportedFile
  rw [hroutes] at hlength
  exact ⟨migrateParamsHook_unimportedFile, by decide +kernel, hbinds.2 (.inr hroutes), hlength⟩

/-- An import of the type alone is left as it is, and there is no value to be given to the
    constructor. -/
theorem not_bindsRoute_type :
    ∃ file done : SourceFile, file.text =
        "import type\x7bActivatedRoute\x7dfrom'@angular/router'\n" ++
          "class A\x7bconstructor()\x7b\x7duiOnParamsChanged()\x7b\x7d\x7d" ∧
      (∃ c ∈ file.classes, HasHook file.text.toList c) ∧ file.migrateParamsHook = .ok done ∧
        ¬ done.BindsRoute := by
  let file := SourceFile.ofText ⟨"a.ts"⟩
    ("import type\x7bActivatedRoute\x7dfrom'@angular/router'\n" ++
      "class A\x7bconstructor()\x7b\x7duiOnParamsChanged()\x7b\x7d\x7d") (by decide +kernel)
  let done := SourceFile.ofText ⟨"a.ts"⟩
    ("import type\x7bActivatedRoute\x7dfrom'@angular/router'\n" ++
      "class A\x7bconstructor(private activatedRoute: ActivatedRoute)\x7b\x7d" ++
      "uiOnParamsChanged()\x7b\x7d\x7d") (by decide +kernel)
  have hedits : file.hookEdits = .ok [.insert 69 routeParameter] := by decide +kernel
  have hdone : file.migrateParamsHook = .ok done :=
    SourceFile.migrateParamsHook_of hedits (by decide +kernel) (by decide +kernel)
      (by decide +kernel)
  exact ⟨file, done, rfl, by decide +kernel, hdone, by decide +kernel⟩

end RouterShift.TypeScript
