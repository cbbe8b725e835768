import Mathlib.Data.List.TakeWhile
import RouterShift.Proofs.TypeScript.Growth

/-! The hook is migrated once. In a file in which it was migrated each class with the hook is one that
    had it before, and its constructor takes the active route: it did, or was given the parameter, or
    was written with it. Some import has the type. So nothing is left to insert, and the file stays as
    it is (`migrateParamsHook_again`). -/

namespace RouterShift.TypeScript

open Grammar.Tree Text Edit

section
variable {cs : List Char} {rs : List Replacement} {ns : List Node} {n m : Node}

theorem isPart_of_kind {kind : Kind} (h : n.kind = kind) (hkind : kind ≠ .comment)
    (htoken : ∀ sign, kind ≠ .token sign) : n.isPart = true := by
  rw [isPart, isNamed, h]
  cases kind <;> simp_all

theorem onlyPart?_eq_some : onlyPart? ns = some n ↔ ns.filter (·.isPart) = [n] := by
  rw [onlyPart?]
  split <;> simp_all

/-- A part that is new is the only one. -/
theorem eq_of_onlyPart? (h : onlyPart? ns = some n) (hm : m ∈ ns) (hpart : m.isPart = true) :
    m = n := by
  have hmem : m ∈ ns.filter (·.isPart) := List.mem_filter.2 ⟨hm, hpart⟩
  rw [onlyPart?_eq_some.1 h] at hmem
  exact List.mem_singleton.1 hmem

theorem mem_of_onlyPart? (h : onlyPart? ns = some n) : n ∈ ns ∧ n.isPart = true := by
  have hmem : n ∈ ns.filter (·.isPart) := by simp [onlyPart?_eq_some.1 h]
  exact List.mem_filter.1 hmem

/-- The list has the parameter for the active route. -/
def HasRoute (cs : List Char) (list : Node) : Prop :=
  ∃ p ∈ list.parts, p.fieldText cs .pattern = "activatedRoute".toList

/-- A list with a new parameter for the active route has it. -/
theorem hasRoute_of_brings {list : Node} {fresh : List Node} (h : BringsParameter cs fresh)
    (hfresh : ∀ x ∈ fresh, x ∈ list.children) : HasRoute cs list := by
  obtain ⟨p, hp, hname⟩ := h
  obtain ⟨hmem, hpart⟩ := mem_of_onlyPart? hp
  exact ⟨p, mem_parts.2 ⟨hfresh p hmem, hpart⟩, hname⟩

end

/-- What is no quotation mark is in a text without its quotation marks, too. -/
theorem mem_trim {x : Char} (hx : x ∈ cs) (hquote : isQuote x = false) : x ∈ trim isQuote cs := by
  have hdrop {l : List Char} (hl : x ∈ l) : x ∈ l.dropWhile isQuote := by
    rw [← @List.takeWhile_append_dropWhile _ isQuote l] at hl
    refine (List.mem_append.1 hl).resolve_left fun htake => ?_
    rw [List.mem_takeWhile_imp htake] at hquote
    cases hquote
  rw [trim, List.mem_reverse]
  exact hdrop (List.mem_reverse.2 (hdrop hx))

theorem not_hasBracket_of_trim (h : trim isQuote cs = "@angular/router".toList) :
    ¬ HasBracket cs := by
  rintro (hmem | hmem)
  · exact absurd (h ▸ mem_trim hmem (by decide)) (by decide +kernel)
  · exact absurd (h ▸ mem_trim hmem (by decide)) (by decide +kernel)

/-- The first of several that is kept is the first one of those that are kept. -/
theorem head?_filter_filter {α : Type} {p q : α → Bool} {l : List α} {a : α}
    (h : (l.filter p).head? = some a) (hq : q a = true) :
    ((l.filter q).filter p).head? = some a := by
  obtain ⟨rest, hrest⟩ := List.head?_eq_some_iff.1 h
  rw [List.filter_comm, hrest, List.filter_cons_of_pos hq, List.head?_cons]

namespace SourceFile

section
variable [Reader] {file done : SourceFile} {rs : List Replacement} {r : Replacement}
  {c c' m m' n n' list list' body body' statement names : Node} {name : String}

/-- The parameter for the active route is found again. -/
theorem Traces.hasRoute (ht : file.Traces done rs list list') (h : Reader.Sound)
    (hg : file.GrowsTo done rs) (hroute : HasRoute file.text.toList list) :
    HasRoute done.text.toList list' := by
  obtain ⟨p, hp, hname⟩ := hroute
  obtain ⟨hmem, hpart⟩ := mem_parts.1 hp
  obtain ⟨p', hp', htp⟩ := exists_of_mem_steps ht.forall₂_old hmem
  refine ⟨p', mem_parts.2 ⟨mem_of_mem_oldAmong hp', htp.grown.isPart.trans hpart⟩, ?_⟩
  exact (htp.fieldText_eq_iff h hg (by decide +kernel) .pattern).2 hname

/-! ### The methods of a class -/

theorem Traces.isMethod_eq (ht : file.Traces done rs m m') (h : Reader.Sound)
    (hg : file.GrowsTo done rs) (hname : ¬ HasBracket name.toList) :
    (m.kind == .methodDefinition && m.fieldText file.text.toList .name == name.toList) =
      (m'.kind == .methodDefinition && m'.fieldText done.text.toList .name == name.toList) := by
  rw [ht.grown.kind, Bool.eq_iff_iff]
  simp [ht.fieldText_eq_iff h hg hname]

/-- The first method of a name was the first one before, or it is new. -/
theorem Traces.head?_methodsNamed (ht : file.Traces done rs body body') (h : Reader.Sound)
    (hg : file.GrowsTo done rs) (hname : ¬ HasBracket name.toList)
    (hbody : c.child? .body = some body) (hbody' : c'.child? .body = some body')
    (hm : (methodsNamed done.text.toList c' name).head? = some m') :
    m' ∈ newAmong rs body'.children ∨
      ∃ m, (methodsNamed file.text.toList c name).head? = some m ∧ file.Traces done rs m m' := by
  cases hnew : isNew rs m' with
  | true =>
    have hmem := (mem_methodsNamed hbody' (List.mem_of_mem_head? hm)).1
    exact .inl (List.mem_filter.2 ⟨hmem, hnew⟩)
  | false =>
    rw [methodsNamed, hbody'] at hm
    have hold := head?_filter_filter (q := (!isNew rs ·)) hm (by simp [hnew])
    have hrel := rel_find? ht.forall₂_old fun m m' hm => hm.isMethod_eq h hg hname
    rw [← List.head?_filter, ← List.head?_filter, oldAmong, hold] at hrel
    refine .inr ?_
    rw [methodsNamed, hbody]
    generalize (body.children.filter _).head? = first at hrel ⊢
    cases hrel with
    | some hm => exact ⟨_, rfl, hm⟩

/-- A method that is new in a class is a constructor with the parameter for the active route. -/
theorem Traces.of_new_method (ht : file.Traces done rs body body') (hkind : body.kind = .classBody)
    (hnew : m' ∈ newAmong rs body'.children) (hm : m'.kind = .methodDefinition) :
    m'.fieldText done.text.toList .name = "constructor".toList ∧
      ∃ list, m'.child? .parameters = some list ∧ HasRoute done.text.toList list := by
  have hbrings : BringsConstructor done.text.toList (newAmong rs body'.children) := by
    by_cases hsite : ∃ r ∈ rs, IsSite r.range.start body
    · have hbrings := ht.grown.brings hsite
      rwa [hkind] at hbrings
    · rw [ht.grown.new_eq_nil hsite] at hnew
      cases hnew
  obtain ⟨m, honly, -, hname, list, hlist, hbrings⟩ := hbrings
  have hpart : m'.isPart = true := isPart_of_kind hm (by decide) (by simp)
  obtain rfl := eq_of_onlyPart? honly hnew hpart
  exact ⟨hname, list, hlist, hasRoute_of_brings hbrings fun _ hx => hx⟩

/-- A class that has the hook had it before. -/
theorem Traces.hasHook (ht : file.Traces done rs body body') (h : Reader.Sound)
    (hg : file.GrowsTo done rs) (hkind : body.kind = .classBody)
    (hbody : c.child? .body = some body) (hbody' : c'.child? .body = some body')
    (hhas : HasHook done.text.toList c') : HasHook file.text.toList c := by
  obtain ⟨m', rest, hmethods⟩ := List.exists_cons_of_ne_nil hhas
  have hhead : (methodsNamed done.text.toList c' "uiOnParamsChanged").head? = some m' := by
    rw [hmethods, List.head?_cons]
  rcases ht.head?_methodsNamed h hg (by decide +kernel) hbody hbody' hhead with hnew | ⟨m, hm, -⟩
  · obtain ⟨-, hmkind, hname⟩ := mem_methodsNamed hbody' (List.mem_of_mem_head? hhead)
    rw [(ht.of_new_method hkind hnew hmkind).1] at hname
    exact absurd hname (by decide +kernel)
  · exact List.ne_nil_of_mem (List.mem_of_mem_head? hm)

/-- A method of the file is found again under its name. -/
theorem Traces.exists_methodsNamed (ht : file.Traces done rs body body') (h : Reader.Sound)
    (hg : file.GrowsTo done rs) (hname : ¬ HasBracket name.toList)
    (hbody : c.child? .body = some body) (hbody' : c'.child? .body = some body')
    (hm : m ∈ methodsNamed file.text.toList c name) :
    ∃ m', m' ∈ methodsNamed done.text.toList c' name := by
  obtain ⟨hmem, hkind, hmname⟩ := mem_methodsNamed hbody hm
  obtain ⟨m', hm', htm⟩ := exists_of_mem_steps ht.forall₂_old hmem
  refine ⟨m', ?_⟩
  rw [methodsNamed, hbody', List.mem_filter, ← htm.isMethod_eq h hg hname]
  exact ⟨mem_of_mem_oldAmong hm', by simp [hkind, hmname]⟩

/-- A list with a place for the parameter has it in the file with the insertions. -/
theorem Traces.hasRoute_of_adds (ht : file.Traces done rs list list') (h : Reader.Sound)
    (hkind : list.kind = .formalParameters) (hadds : AddsParameter list r) (hr : r ∈ rs) :
    HasRoute done.text.toList list' := by
  have hsite := (Takes.isSite h ht.mem (.inl ⟨hkind, hadds⟩)).2
  have hbrings := ht.grown.brings ⟨r, hr, hsite⟩
  rw [hkind] at hbrings
  exact hasRoute_of_brings hbrings fun x hx => mem_of_mem_newAmong hx

section
variable {g : Option Replacement} (ht : file.Traces done rs body body') (h : Reader.Sound)
  (hg : file.GrowsTo done rs) (hclass : c ∈ file.classes) (hbody : c.child? .body = some body)
  (hbody' : c'.child? .body = some body') (hgets : Gets file.text.toList c g)
  (hmade : ∀ r ∈ g, r ∈ rs)

include ht h hg hclass hbody hbody' hgets hmade

/-- A class that got what it gets has a constructor. -/
theorem exists_constructor : ∃ m,
    (methodsNamed done.text.toList c' "constructor").head? = some m := by
  suffices hexists : ∃ m', m' ∈ methodsNamed done.text.toList c' "constructor" by
    obtain ⟨m', hm'⟩ := hexists
    obtain ⟨m, rest, hmethods⟩ := List.exists_cons_of_ne_nil (List.ne_nil_of_mem hm')
    exact ⟨m, by rw [hmethods, List.head?_cons]⟩
  have hname : ¬ HasBracket "constructor".toList := by decide +kernel
  have hkind := (formed h (mem_classes.1 hclass).1).classBody (mem_classes.1 hclass).2 body hbody
  cases hgets with
  | nothing hm _ _ _ => exact ht.exists_methodsNamed h hg hname hbody hbody' (List.mem_of_mem_head? hm)
  | parameter hm _ _ _ =>
    exact ht.exists_methodsNamed h hg hname hbody hbody' (List.mem_of_mem_head? hm)
  | @constructor body₀ r hbody₀ _ _ hadds =>
    obtain rfl := Option.some.inj (hbody.symm.trans hbody₀)
    have hsite := (Takes.isSite h ht.mem (.inr (.inl ⟨hkind, hadds⟩))).2
    have hbrings := ht.grown.brings ⟨r, hmade r rfl, hsite⟩
    rw [hkind] at hbrings
    obtain ⟨m', honly, hmkind, hmname, -⟩ := hbrings
    refine ⟨m', ?_⟩
    rw [methodsNamed, hbody', List.mem_filter]
    exact ⟨mem_of_mem_newAmong (mem_of_onlyPart? honly).1, by simp [hmkind, hmname]⟩

/-- The constructor has the parameter for the active route. -/
theorem hasRoute_of_gets (hm : (methodsNamed done.text.toList c' "constructor").head? = some m') :
    ∃ list, m'.child? .parameters = some list ∧ HasRoute done.text.toList list := by
  have hkind := (formed h (mem_classes.1 hclass).1).classBody (mem_classes.1 hclass).2 body hbody
  rcases ht.head?_methodsNamed h hg (by decide +kernel) hbody hbody' hm with hnew | ⟨m, hm, htm⟩
  · obtain ⟨-, hmkind, -⟩ := mem_methodsNamed hbody' (List.mem_of_mem_head? ‹_›)
    exact (ht.of_new_method hkind hnew hmkind).2
  · cases hgets with
    | nothing hm₀ hlist hp hpname =>
      obtain rfl := Option.some.inj (hm.symm.trans hm₀)
      obtain ⟨list', hlist', htl⟩ := htm.exists_child? hlist
      exact ⟨list', hlist', htl.hasRoute h hg ⟨_, hp, hpname⟩⟩
    | @parameter m₀ list r hm₀ hlist _ hadds =>
      obtain rfl := Option.some.inj (hm.symm.trans hm₀)
      obtain ⟨list', hlist', htl⟩ := htm.exists_child? hlist
      obtain ⟨-, -, -, -, -, hlkind, -⟩ := exists_body_of_parameters (formed_of_mem_classes h hclass)
        (List.mem_of_mem_head? hm) hlist
      exact ⟨list', hlist', htl.hasRoute_of_adds h hlkind hadds (hmade r rfl)⟩
    | constructor _ hnone _ _ =>
      rw [hnone] at hm
      cases hm

end

/-- Nothing is left to insert for a class with the hook. -/
theorem Inserts.injection_eq_none {given : List (Option Replacement)} {route : Option Replacement}
    (hinserts : file.Inserts given route done.text) (h : Reader.Sound) (hg : file.GrowsTo done rs)
    (hrs : ∀ r, r ∈ rs ↔ r ∈ given.reduceOption ++ route.toList) (hc : c' ∈ done.classes)
    (hbody' : c'.child? .body = some body') (hhas : HasHook done.text.toList c') (path : Path) :
    injection path done.text.toList c' body' = .ok none := by
  obtain ⟨c, hclass, htc⟩ := hg.exists_class hc
  obtain ⟨body, hbody, ht⟩ := htc.of_child? hbody'
  have hkind := (formed h (mem_classes.1 hclass).1).classBody (mem_classes.1 hclass).2 body hbody
  have hhook := ht.hasHook h hg hkind hbody hbody' hhas
  obtain ⟨g, hgmem, hgets⟩ := exists_of_mem_steps hinserts.classes (mem_hookClasses.2 ⟨hclass, hhook⟩)
  have hmade : ∀ r ∈ g, r ∈ rs := by
    rintro r rfl
    exact (hrs r).2 (List.mem_append_left _ (List.reduceOption_mem_iff.2 hgmem))
  obtain ⟨m, hm⟩ := exists_constructor ht h hg hclass hbody hbody' hgets hmade
  obtain ⟨list, hlist, hroute⟩ := hasRoute_of_gets ht h hg hclass hbody hbody' hgets hmade hm
  rw [injection, method?_eq_head? hbody', hm]
  simp only [hlist, Option.bind_some, injectParameter?_eq_none hroute]

/-! ### The import -/

/-- An import from the router is found again, with its names. -/
theorem TakesFromRouter.exists_traces (hfrom : file.TakesFromRouter statement names)
    (h : Reader.Sound) (hg : file.GrowsTo done rs) :
    ∃ statement' names', done.TakesFromRouter statement' names' ∧
      file.Traces done rs statement statement' ∧ file.Traces done rs names names' := by
  obtain ⟨hs, hkind, hsource, clause, hclause, hnames⟩ := hfrom
  obtain ⟨hmem, hpart⟩ := mem_parts_file.1 hs
  obtain ⟨s', hs', hts⟩ := exists_of_mem_steps hg.forall₂ hmem
  have hplain : ¬ IsBracketed statement.kind := by simp [IsBracketed, hkind]
  have hclausekind := (mem_of_part? hclause).2
  obtain ⟨clause', hclause', htc⟩ := exists_of_rel_some (hts.rel_part? hplain .importClause) hclause
  obtain ⟨names', hnames', htn⟩ := exists_of_rel_some
    (htc.rel_part? (by simp [IsBracketed, hclausekind]) .namedImports) hnames
  refine ⟨s', names', ⟨mem_parts_file.2 ⟨mem_of_mem_oldAmong hs', hts.grown.isPart.trans hpart⟩,
    hts.grown.kind.trans hkind, ?_, clause', hclause', hnames'⟩, hts, htn⟩
  exact (hts.fieldText_iff h hg (P := (trim isQuote · = "@angular/router".toList))
    (fun _ => not_hasBracket_of_trim) .source).2 hsource

/-- The name of the type is found again. -/
theorem Traces.takesRoute (ht : file.Traces done rs names n') (h : Reader.Sound)
    (hg : file.GrowsTo done rs) (htakes : TakesRoute file.text.toList names) :
    TakesRoute done.text.toList n' := by
  obtain ⟨s, hs, hname⟩ := htakes
  obtain ⟨hpart, hkind⟩ := mem_partsOf.1 hs
  obtain ⟨hmem, hpart⟩ := mem_parts.1 hpart
  obtain ⟨s', hs', hts⟩ := exists_of_mem_steps ht.forall₂_old hmem
  refine ⟨s', mem_partsOf.2 ⟨mem_parts.2 ⟨mem_of_mem_oldAmong hs', ?_⟩, ?_⟩, ?_⟩
  · exact hts.grown.isPart.trans hpart
  · exact hts.grown.kind.trans hkind
  · exact (hts.fieldText_eq_iff h hg (by decide +kernel) .name).2 hname

theorem takesRoute_of_brings {fresh : List Node} (hbrings : BringsName done.text.toList fresh)
    (hfresh : ∀ x ∈ fresh, x ∈ names.children) : TakesRoute done.text.toList names := by
  obtain ⟨s, honly, hkind, hname, -⟩ := hbrings
  obtain ⟨hmem, hpart⟩ := mem_of_onlyPart? honly
  exact ⟨s, mem_partsOf.2 ⟨mem_parts.2 ⟨hfresh s hmem, hpart⟩, hkind⟩, hname⟩

/-- The name of the type is new in an import that is not for types alone, if something is inserted for
    it. -/
theorem GetsImport.exists_brings (hroute : file.GetsImport (some r)) (h : Reader.Sound)
    (hg : file.GrowsTo done rs) (hr : r ∈ rs) : ∃ statement names fresh,
      done.TakesFromRouter statement names ∧ statement.hasToken "type" = false ∧
        BringsName done.text.toList fresh ∧ ∀ x ∈ fresh, x ∈ names.children := by
  cases hroute with
  | @name s names _ hnone hfrom hvalue hadds =>
    obtain ⟨s', names', hfrom', hts, ht⟩ := hfrom.exists_traces h hg
    have hkind := hfrom.mem.2
    have hsite := (Takes.isSite h ht.mem (.inr (.inr ⟨hkind, hadds⟩))).2
    have hbrings := ht.grown.brings ⟨r, hr, hsite⟩
    rw [hkind] at hbrings
    rw [← hts.hasToken_eq (by simp [IsBracketed, hfrom.2.1])] at hvalue
    exact ⟨s', names', _, hfrom', hvalue, hbrings, fun x hx => mem_of_mem_newAmong hx⟩
  | @statement first hnone htypes hfirst =>
    have hmem := (mem_parts_file.1 (List.mem_of_mem_head? hfirst)).1
    have hbrings := hg.grown.2.2
    rw [if_pos ⟨_, hr, isBetween_before h hmem _⟩] at hbrings
    obtain ⟨s, honly, hkind, hsource, hvalue, clause, hclause, names, hnames, hbrings⟩ := hbrings
    obtain ⟨hs, hpart⟩ := mem_of_onlyPart? honly
    exact ⟨s, names, _, ⟨mem_parts_file.2 ⟨mem_of_mem_newAmong hs, hpart⟩, hkind, hsource, clause, hclause,
      hnames⟩, hvalue, hbrings, fun x hx => hx⟩

/-- Some import takes the type of the active route. -/
theorem GetsImport.exists_takesRoute {route : Option Replacement} (hroute : file.GetsImport route)
    (h : Reader.Sound) (hg : file.GrowsTo done rs) (hmade : ∀ r ∈ route, r ∈ rs) :
    ∃ statement names, done.TakesFromRouter statement names ∧
      TakesRoute done.text.toList names := by
  cases route with
  | none =>
    cases hroute with
    | nothing hfrom htakes =>
      obtain ⟨s', names', hfrom', -, ht⟩ := hfrom.exists_traces h hg
      exact ⟨s', names', hfrom', ht.takesRoute h hg htakes⟩
  | some r =>
    obtain ⟨s, names, fresh, hfrom, -, hbrings, hfresh⟩ := hroute.exists_brings h hg (hmade r rfl)
    exact ⟨s, names, hfrom, takesRoute_of_brings hbrings hfresh⟩

theorem routeImport?_eq_none (hfrom : file.TakesFromRouter statement names)
    (htakes : TakesRoute file.text.toList names) : file.routeImport? = none :=
  if_pos (List.any_eq_true.2 ⟨(statement, names), mem_routerImports.2 hfrom,
    any_isRouteSpecifier_iff.2 htakes⟩)

theorem hookEdits_eq_nil (hinjections : ∀ i ∈ file.hooked,
      injection file.path file.text.toList i.1 i.2 = .ok none) (hroute : file.routeImport? = none) :
    file.hookEdits = .ok [] := by
  have hmap : (file.hooked.mapM fun i => injection file.path file.text.toList i.1 i.2) =
      .ok (file.hooked.map fun _ => none) := by
    rw [mapM_eq_ok, List.forall₂_map_right_iff, List.forall₂_same]
    exact hinjections
  rw [hookEdits]
  split
  · rfl
  · rw [hmap, hroute]
    simp

end
end SourceFile

section
variable [Reader] {file done : SourceFile}

/-- The migration of the hook is done at once, for every reader that keeps to the grammar and finds
    again what it has read behind insertions for the hook: a second one leaves the file as it is. -/
theorem migrateParamsHook_again (h : Reader.Sound) (hgrows : Reader.Grows)
    (hdone : file.migrateParamsHook = .ok done) : done.migrateParamsHook = .ok done := by
  by_cases hhooked : file.hooked = []
  · rw [SourceFile.migrateParamsHook_of_hooked_eq_nil hhooked] at hdone
    obtain rfl := Except.ok.inj hdone
    exact SourceFile.migrateParamsHook_of_hooked_eq_nil hhooked
  obtain ⟨-, given, route, hinserts⟩ := SourceFile.inserts_of_eq_ok h hhooked hdone
  obtain ⟨rs, hg, hrs⟩ := hinserts.exists_growsTo h hgrows
  have hinjections : ∀ i ∈ done.hooked,
      injection done.path done.text.toList i.1 i.2 = .ok none := by
    intro i hi
    obtain ⟨hc, hbody, hhas⟩ := (SourceFile.mem_hooked h).1 hi
    exact hinserts.injection_eq_none h hg hrs hc hbody hhas done.path
  obtain ⟨s, names, hfrom, htakes⟩ := hinserts.imported.exists_takesRoute h hg fun r hr =>
    (hrs r).2 (List.mem_append_right _ (Option.mem_toList.2 hr))
  have hedits := SourceFile.hookEdits_eq_nil hinjections (SourceFile.routeImport?_eq_none hfrom htakes)
  rw [SourceFile.migrateParamsHook, hedits]
  rfl

end

theorem migrateParamsHook_again_once :
    let _ : Reader := importReader
    unimportedFile.migrateParamsHook = .ok importedFile ∧
      importedFile.migrateParamsHook = .ok importedFile := by
  intro _
  exact ⟨migrateParamsHook_unimportedFile, migrateParamsHook_again (grammarOn_sound _)
    importReader_grows migrateParamsHook_unimportedFile⟩

end RouterShift.TypeScript
