import Mathlib.Data.List.ReduceOption
import RouterShift.Proofs.Chain
import RouterShift.Proofs.TypeScript.Edited
import RouterShift.Proofs.TypeScript.Forms
import RouterShift.Proofs.TypeScript.HookPlaces
import RouterShift.Proofs.TypeScript.Insertions

/-! What the migration of the hook does to a file. A class gets the parameter as the last one of its
    constructor, or a constructor that takes nothing else, or nothing when it has the parameter
    (`Gets`); it is inserted in the place of the class, so what several classes get stands apart. All of
    it is said of the class declarations in the tree, whatever the search for them finds. -/

namespace RouterShift.TypeScript

open Grammar.Tree Text Edit

/-! ### Classes and their constructors -/

/-- The functions of a name in the body of a class. -/
def methodsNamed (cs : List Char) (c : Node) (name : String) : List Node :=
  match c.child? .body with
  | some body =>
    body.children.filter fun m => m.kind == .methodDefinition && m.fieldText cs .name == name.toList
  | none => []

/-- The class has the hook. -/
def HasHook (cs : List Char) (c : Node) : Prop := methodsNamed cs c "uiOnParamsChanged" ≠ []

instance (cs : List Char) (c : Node) : Decidable (HasHook cs c) :=
  inferInstanceAs (Decidable (_ ≠ _))

/-- The class is declared with a base class. -/
def HasBase (c : Node) : Prop :=
  ∃ heritage ∈ c.children, heritage.kind = .classHeritage ∧
    ∃ clause ∈ heritage.children, clause.kind = .extendsClause

instance : DecidablePred HasBase := fun c =>
  inferInstanceAs (Decidable (∃ heritage ∈ c.children, _ ∧ ∃ clause ∈ heritage.children, _))

/-- The class has a base class and no constructor, so it cannot be given the parameter. -/
def IsUnsupported (cs : List Char) (c : Node) : Prop :=
  methodsNamed cs c "constructor" = [] ∧ HasBase c

instance (cs : List Char) : DecidablePred (IsUnsupported cs) := fun _ =>
  inferInstanceAs (Decidable (_ ∧ _))

/-- What a class with the hook gets. -/
inductive Gets (cs : List Char) (c : Node) : Option Replacement → Prop
  /-- Its constructor has the parameter. -/
  | nothing {m list p : Node} (hm : (methodsNamed cs c "constructor").head? = some m)
    (hlist : m.child? .parameters = some list) (hp : p ∈ list.parts)
    (hname : p.fieldText cs .pattern = "activatedRoute".toList) : Gets cs c none
  /-- The constructor has no such parameter, and it becomes the one behind all others. -/
  | parameter {m list : Node} {r : Replacement}
    (hm : (methodsNamed cs c "constructor").head? = some m)
    (hlist : m.child? .parameters = some list)
    (hnone : ∀ p ∈ list.parts, p.fieldText cs .pattern ≠ "activatedRoute".toList)
    (hadds : AddsParameter list r) : Gets cs c (some r)
  /-- There is neither a constructor nor a base class. A constructor becomes the first member. -/
  | constructor {body : Node} {r : Replacement} (hbody : c.child? .body = some body)
    (hnone : methodsNamed cs c "constructor" = []) (hbase : ¬ HasBase c)
    (hadds : AddsConstructor body r) : Gets cs c (some r)

section
variable {cs : List Char} {c body m : Node} {name : String} {r : Replacement}
  {g : Option Replacement} {path : Path}

theorem method?_eq_head? (hbody : c.child? .body = some body) :
    method? cs body name = (methodsNamed cs c name).head? := by
  rw [methodsNamed, hbody, List.head?_filter, method?, partsOf, parts, List.filter_filter,
    List.find?_filter]
  congr 1
  funext m
  by_cases hkind : m.kind = .methodDefinition
  · simp [hkind, isPart, isNamed, beq_eq_decide]
  · simp [hkind]

theorem extendsBase_iff : extendsBase c = true ↔ HasBase c := by
  simp [extendsBase, HasBase]

theorem mem_methodsNamed (hbody : c.child? .body = some body) (hm : m ∈ methodsNamed cs c name) :
    m ∈ body.children ∧ m.kind = .methodDefinition ∧ m.fieldText cs .name = name.toList := by
  rw [methodsNamed, hbody] at hm
  simpa using hm

theorem hookBody?_eq_some :
    hookBody? cs c = some body ↔ c.child? .body = some body ∧ HasHook cs c := by
  rw [hookBody?, Option.filter_eq_some_iff]
  refine and_congr_right fun hbody => ?_
  rw [method?_eq_head? hbody, List.isSome_head?, HasHook]
  simp [Vocabulary.paramsHook]

theorem exists_of_hasHook (h : HasHook cs c) : ∃ body, c.child? .body = some body := by
  cases hbody : c.child? .body with
  | none => exact absurd (by rw [methodsNamed, hbody]) h
  | some body => exact ⟨body, rfl⟩

/-- No parameter is inserted into a list that has it. -/
theorem injectParameter?_eq_none {list : Node}
    (h : ∃ p ∈ list.parts, p.fieldText cs .pattern = "activatedRoute".toList) :
    injectParameter? cs list = none :=
  if_pos (by simpa [isRouteParameter, Vocabulary.routeParam] using h)

theorem exists_of_injectParameter?_eq_none {list : Node} {opening closing : String}
    {items : List Node} (hencloses : list.Encloses opening items closing) (hopening : opening = "(")
    (h : injectParameter? cs list = none) :
    ∃ p ∈ list.parts, p.fieldText cs .pattern = "activatedRoute".toList := by
  rw [injectParameter?] at h
  split at h
  · next hany => simpa [isRouteParameter, Vocabulary.routeParam] using hany
  · split at h
    · obtain ⟨first, last, hchildren, hfirst, -⟩ := hencloses
      rw [hchildren, List.find?_cons_of_pos (by simp [hfirst, hopening])] at h
      cases h
    · split at h <;> cases h

/-- The insertion for a class is what it gets. -/
theorem gets_of_injection {lo hi : Nat} (hc : c.Within lo hi)
    (hformed : ∀ n ∈ c.subtrees, n.WellFormed cs) (hbody : c.child? .body = some body)
    (h : injection path cs c body = .ok g) : Gets cs c g := by
  rw [injection, method?_eq_head? hbody] at h
  cases hm : (methodsNamed cs c "constructor").head? with
  | some m =>
    obtain ⟨hmbody, hkind, -⟩ := mem_methodsNamed hbody (List.mem_of_mem_head? hm)
    have hbodymem := (mem_of_child? hbody).1
    have hmsub := subtrees_trans (child_mem_subtrees hbodymem) (child_mem_subtrees hmbody)
    obtain ⟨list, hlist, hlkind⟩ := (hformed m hmsub).method hkind
    have hlistmem := (mem_of_child? hlist).1
    have hlistsub := subtrees_trans hmsub (child_mem_subtrees hlistmem)
    have hlistformed := hformed list hlistsub
    simp only [hm, hlist, Option.bind_some] at h
    obtain rfl := Except.ok.inj h
    obtain ⟨items, hencloses, -⟩ := hlistformed.parameters hlkind
    cases hr : injectParameter? cs list with
    | none =>
      obtain ⟨p, hp, hname⟩ := exists_of_injectParameter?_eq_none hencloses rfl hr
      exact .nothing hm hlist hp hname
    | some r =>
      refine .parameter hm hlist (fun p hp hname => ?_) ?_
      · rw [injectParameter?_eq_none ⟨p, hp, hname⟩] at hr
        cases hr
      · refine addsParameter_of_injectParameter? (hc.of_mem hlistsub) hlistformed (fun x hx => ?_)
          hlkind hr
        exact hformed x (subtrees_trans hlistsub (child_mem_subtrees hx))
  | none =>
    simp only [hm] at h
    split at h
    · cases h
    · next hbase =>
      obtain rfl := Except.ok.inj h
      refine .constructor hbody (List.head?_eq_none_iff.1 hm) (fun hhas => ?_) newConstructor_adds
      exact hbase (extendsBase_iff.2 hhas)

theorem error_of_injection {e : SourceError} (hbody : c.child? .body = some body)
    (h : injection path cs c body = .error e) : IsUnsupported cs c ∧
      e = .unsupportedConstructor path (String.ofList (c.fieldText cs .name)) := by
  rw [injection, method?_eq_head? hbody] at h
  cases hm : (methodsNamed cs c "constructor").head? with
  | some m =>
    simp only [hm] at h
    cases h
  | none =>
    simp only [hm] at h
    split at h
    · next hbase =>
      cases h
      exact ⟨⟨List.head?_eq_none_iff.1 hm, extendsBase_iff.1 hbase⟩, rfl⟩
    · cases h

theorem injection_of_isUnsupported (hbody : c.child? .body = some body) (h : IsUnsupported cs c) :
    injection path cs c body =
      .error (.unsupportedConstructor path (String.ofList (c.fieldText cs .name))) := by
  rw [injection, method?_eq_head? hbody]
  simp only [List.head?_eq_none_iff.2 h.1, extendsBase_iff.2 h.2, if_true]

/-- Where the parameters of a method of a class are. -/
theorem exists_body_of_parameters {list : Node} (hformed : ∀ n ∈ c.subtrees, n.WellFormed cs)
    (hm : m ∈ methodsNamed cs c name) (hlist : m.child? .parameters = some list) :
    ∃ body, c.child? .body = some body ∧ m ∈ body.children ∧ m.kind = .methodDefinition ∧
      list ∈ m.children ∧ list.kind = .formalParameters ∧ list ∈ c.subtrees := by
  obtain ⟨body, hbody⟩ : ∃ body, c.child? .body = some body := by
    cases hbody : c.child? .body with
    | none => rw [methodsNamed, hbody] at hm; cases hm
    | some body => exact ⟨body, rfl⟩
  obtain ⟨hmbody, hkind, -⟩ := mem_methodsNamed hbody hm
  have hmsub := subtrees_trans (child_mem_subtrees (mem_of_child? hbody).1)
    (child_mem_subtrees hmbody)
  obtain ⟨list', hlist', hlkind⟩ := (hformed m hmsub).method hkind
  obtain rfl := Option.some.inj (hlist.symm.trans hlist')
  have hlistmem := (mem_of_child? hlist).1
  exact ⟨body, hbody, hmbody, hkind, hlistmem, hlkind,
    subtrees_trans hmsub (child_mem_subtrees hlistmem)⟩

/-- What a class gets is inserted in its place. -/
theorem Gets.hasPlace {lo hi : Nat} (h : Gets cs c (some r)) (hc : c.Within lo hi)
    (hclass : c.isClass = true) (hformed : ∀ n ∈ c.subtrees, n.WellFormed cs) :
    CanInsert cs r ∧ HasPlace c r.range.start := by
  have hbodykind := (hformed c c.self_mem_subtrees).classBody hclass
  have hchildren {n : Node} (hn : n ∈ c.subtrees) : ∀ x ∈ n.children, x.WellFormed cs := fun x hx =>
    hformed x (subtrees_trans hn (child_mem_subtrees hx))
  cases h with
  | @parameter m list _ hm hlist hnone hadds =>
    obtain ⟨body, hbody, hmbody, hkind, hlistmem, hlkind, hlistsub⟩ :=
      exists_body_of_parameters hformed (List.mem_of_mem_head? hm) hlist
    obtain ⟨hcan, hsite⟩ := hadds.insertsAt (hc.of_mem hlistsub) hlkind (hformed list hlistsub)
      (hchildren hlistsub)
    exact ⟨hcan, hasPlace_of_list hc (mem_of_child? hbody).1 (hbodykind body hbody) hmbody hkind
      hlistmem hlkind hsite⟩
  | @constructor body _ hbody hnone hbase hadds =>
    have hbodymem := (mem_of_child? hbody).1
    have hbodysub := child_mem_subtrees hbodymem
    obtain ⟨hcan, hsite⟩ := hadds.insertsAt (hc.child hbodymem) (hbodykind body hbody)
      (hformed body hbodysub) (hchildren hbodysub)
    exact ⟨hcan, hasPlace_of_body hc hbodymem (hbodykind body hbody) hsite⟩

end

/-! ### The import of the active route -/

/-- The type of the active route is one of the names in braces. -/
def TakesRoute (cs : List Char) (names : Node) : Prop :=
  ∃ specifier ∈ names.partsOf .importSpecifier,
    specifier.fieldText cs .name = "ActivatedRoute".toList

theorem any_isRouteSpecifier_iff {cs : List Char} {names : Node} :
    (names.partsOf .importSpecifier).any (isRouteSpecifier cs) = true ↔ TakesRoute cs names := by
  simp [TakesRoute, isRouteSpecifier, Vocabulary.routeType]

theorem importText_eq :
    importText = "import \x7b ActivatedRoute \x7d from '@angular/router';\n" := by decide +kernel

section
variable [Reader]

/-- An import from the router, with the names that it takes in braces. -/
def SourceFile.TakesFromRouter (file : SourceFile) (statement names : Node) : Prop :=
  statement ∈ file.parts ∧ statement.kind = .importStatement ∧
    trim isQuote (statement.fieldText file.text.toList .source) = "@angular/router".toList ∧
      ∃ clause, statement.part? .importClause = some clause ∧ clause.part? .namedImports = some names

/-- What is inserted for the type of the active route in a file that has the hook. -/
inductive SourceFile.GetsImport (file : SourceFile) : Option Replacement → Prop
  /-- Some import from the router takes it. -/
  | nothing {statement names : Node} (h : file.TakesFromRouter statement names)
    (htakes : TakesRoute file.text.toList names) : GetsImport file none
  /-- None does, and an import that is not for types alone takes one more name. -/
  | name {statement names : Node} {r : Replacement}
    (hnone : ∀ s ns, file.TakesFromRouter s ns → ¬ TakesRoute file.text.toList ns)
    (h : file.TakesFromRouter statement names) (hvalue : statement.hasToken "type" = false)
    (hadds : AddsName names r) : GetsImport file (some r)
  /-- There is no such import either. An import comes before the first statement. -/
  | statement {first : Node}
    (hnone : ∀ s ns, file.TakesFromRouter s ns → ¬ TakesRoute file.text.toList ns)
    (htypes : ∀ s ns, file.TakesFromRouter s ns → s.hasToken "type" = true)
    (hfirst : file.parts.head? = some first) : GetsImport file
      (some (.insert first.span.start "import \x7b ActivatedRoute \x7d from '@angular/router';\n"))

namespace SourceFile

variable {file : SourceFile} {statement names c : Node} {r : Replacement}
  {route : Option Replacement}

theorem mem_routerImports :
    (statement, names) ∈ file.routerImports ↔ file.TakesFromRouter statement names := by
  simp only [routerImports, List.mem_filterMap, List.mem_filter, Option.map_eq_some_iff,
    Prod.mk.injEq, isRouterImport, Bool.and_eq_true, beq_iff_eq, TakesFromRouter, names?,
    Option.bind_eq_some_iff, Vocabulary.routerModule]
  constructor
  · rintro ⟨s, ⟨hs, hkind, hsource⟩, ns, hnames, rfl, rfl⟩
    exact ⟨hs, hkind, hsource, hnames⟩
  · rintro ⟨hs, hkind, hsource, hnames⟩
    exact ⟨statement, ⟨hs, hkind, hsource⟩, names, hnames, rfl, rfl⟩

theorem getsImport_routeImport? (h : file.parts ≠ []) : file.GetsImport file.routeImport? := by
  rw [routeImport?]
  split
  · next hany =>
    obtain ⟨⟨s, ns⟩, hmem, htakes⟩ := List.any_eq_true.1 hany
    exact .nothing (mem_routerImports.1 hmem) (any_isRouteSpecifier_iff.1 htakes)
  · next hnone =>
    have hnone : ∀ s ns, file.TakesFromRouter s ns → ¬ TakesRoute file.text.toList ns := by
      intro s ns hmem htakes
      exact hnone (List.any_eq_true.2
        ⟨(s, ns), mem_routerImports.2 hmem, any_isRouteSpecifier_iff.2 htakes⟩)
    cases hfind : file.routerImports.find? fun i => !isTypeOnly i.1 with
    | some i =>
      obtain ⟨s, ns⟩ := i
      have hvalue : s.hasToken "type" = false := by simpa [isTypeOnly] using List.find?_some hfind
      exact .name hnone (mem_routerImports.1 (List.mem_of_find?_eq_some hfind)) hvalue
        extendNames_adds
    | none =>
      obtain ⟨first, rest, hparts⟩ := List.exists_cons_of_ne_nil h
      rw [hparts, List.head?_cons, importText_eq]
      refine .statement hnone (fun s ns hmem => ?_) (by rw [hparts, List.head?_cons])
      simpa [isTypeOnly] using List.find?_eq_none.1 hfind (s, ns) (mem_routerImports.2 hmem)

theorem TakesFromRouter.mem (h : file.TakesFromRouter statement names) :
    names ∈ subtreesAmong file.nodes ∧ names.kind = .namedImports := by
  obtain ⟨hs, -, -, clause, hclause, hnames⟩ := h
  obtain ⟨hnamesmem, hkind⟩ := mem_of_part? hnames
  have hsmem := subset_subtreesAmong (mem_parts_file.1 hs).1
  have hclausemem := child_mem_subtreesAmong hsmem
    (mem_parts.1 (mem_of_part? hclause).1).1
  exact ⟨child_mem_subtreesAmong hclausemem (mem_parts.1 hnamesmem).1, hkind⟩

/-- The import of the active route is inserted where no class has its place. -/
theorem GetsImport.apart (hget : file.GetsImport (some r)) (h : Reader.Sound) :
    CanInsert file.text.toList r ∧
      ∀ c ∈ file.classes, ∀ p, HasPlace c p → p ≠ r.range.start := by
  have hformed {n : Node} (hn : n ∈ subtreesAmong file.nodes) := formed h hn
  cases hget with
  | name hnone htakes hvalue hadds =>
    obtain ⟨hmem, hkind⟩ := htakes.mem
    obtain ⟨hcan, hsite⟩ := hadds.insertsAt (within_of_mem h hmem) hkind (hformed hmem)
      fun x hx => hformed (child_mem_subtreesAmong hmem hx)
    exact ⟨hcan, fun c hc p hp => ne_of_names h hc hp hmem hkind hsite⟩
  | @statement first hnone htypes hfirst =>
    have hmem := subset_subtreesAmong (mem_parts_file.1 (List.mem_of_mem_head? hfirst)).1
    refine ⟨canInsert_before _ (hformed hmem), fun c hc p hp => ?_⟩
    obtain ⟨first', hfirst', hlt⟩ := first_of_class h hc
    obtain rfl := Option.some.inj (hfirst.symm.trans hfirst')
    exact Nat.ne_of_gt (hlt c hc p hp)

end SourceFile
end

/-! ### All insertions -/

theorem exists_of_mem_given {cs : List Char} {classes : List Node} {r : Replacement}
    {given : List (Option Replacement)} (h : List.Forall₂ (Gets cs) classes given)
    (hr : r ∈ given.reduceOption) :
    ∃ c ∈ classes, Gets cs c (some r) := by
  obtain ⟨g, hg, rfl⟩ := List.mem_filterMap.1 hr
  exact exists_of_mem_steps (List.Forall₂.flip h) hg

section
variable [Reader]

/-- The classes of a file that have the hook. -/
def SourceFile.hookClasses (file : SourceFile) : List Node :=
  file.classes.filter fun c => HasHook file.text.toList c

/-- The hook is migrated by insertions: one for each class at most, and one for the import at most.
    They are made at places of their own, all of them, and leave the rest of the text as it is. -/
structure SourceFile.Inserts (file : SourceFile) (given : List (Option Replacement))
    (route : Option Replacement) (text : String) : Prop where
  classes : List.Forall₂ (Gets file.text.toList) file.hookClasses given
  imported : file.GetsImport route
  insertions : ∀ r ∈ given.reduceOption ++ route.toList, IsInsertion r
  apart : (given.reduceOption ++ route.toList).Pairwise fun q r => q.range.start ≠ r.range.start
  all : ∃ applied, applied.Perm (given.reduceOption ++ route.toList) ∧
    applyEdits file.text (given.reduceOption ++ route.toList) = .ok ⟨text, applied, []⟩
  text : simultaneous file.text.toList (given.reduceOption ++ route.toList) = some text.toList

namespace SourceFile

variable {file done : SourceFile} {c body : Node} {r : Replacement} {hooked : List (Node × Node)}
  {given : List (Option Replacement)}

/-- The search finds the classes that have the hook, with their bodies. -/
theorem mem_hooked (h : Reader.Sound) : (c, body) ∈ file.hooked ↔
    c ∈ file.classes ∧ c.child? .body = some body ∧ HasHook file.text.toList c := by
  simp only [hooked, List.mem_filterMap, Option.map_eq_some_iff, Prod.mk.injEq, hookBody?_eq_some,
    ← file.map_declarations h, List.mem_map]
  constructor
  · rintro ⟨d, hd, b, hb, rfl, rfl⟩
    exact ⟨⟨d, hd, rfl⟩, hb⟩
  · rintro ⟨⟨d, hd, rfl⟩, hb⟩
    exact ⟨d, hd, body, hb, rfl, rfl⟩

theorem map_hooked (file : SourceFile) (h : Reader.Sound) :
    file.hooked.map (·.1) = file.hookClasses := by
  rw [hooked, hookClasses, ← file.map_declarations h, List.filter_map, List.map_filterMap]
  induction file.declarations with
  | nil => rfl
  | cons d ds ih =>
    rw [List.filterMap_cons, List.filter_cons, ih]
    by_cases hhook : HasHook file.text.toList d.node
    · obtain ⟨body, hbody⟩ := exists_of_hasHook hhook
      simp [hookBody?_eq_some.2 ⟨hbody, hhook⟩, hhook]
    · have hnone : hookBody? file.text.toList d.node = none := by
        rw [Option.eq_none_iff_forall_ne_some]
        exact fun body hbody => hhook (hookBody?_eq_some.1 hbody).2
      simp [hnone, hhook]

theorem hooked_eq_nil_iff (h : Reader.Sound) :
    file.hooked = [] ↔ ∀ c ∈ file.classes, ¬ HasHook file.text.toList c := by
  rw [← List.map_eq_nil_iff, map_hooked file h, hookClasses, List.filter_eq_nil_iff]
  simp

theorem formed_of_mem_classes (h : Reader.Sound) (hc : c ∈ file.classes) :
    ∀ n ∈ c.subtrees, n.WellFormed file.text.toList := fun _ hn =>
  formed h (subtreesAmong_trans (mem_classes.1 hc).1 hn)

theorem gets_of_injections (h : Reader.Sound) (hhooked : ∀ i ∈ hooked, i ∈ file.hooked)
    (hgiven : List.Forall₂ (fun i g => injection file.path file.text.toList i.1 i.2 = .ok g)
      hooked given) : List.Forall₂ (Gets file.text.toList) (hooked.map (·.1)) given := by
  induction hgiven with
  | nil => exact .nil
  | @cons i g hooked given hinjection _ ih =>
    obtain ⟨hi, hhooked⟩ := List.forall_mem_cons.1 hhooked
    obtain ⟨hc, hbody, -⟩ := (mem_hooked h).1 hi
    exact .cons (gets_of_injection (within_of_mem h (mem_classes.1 hc).1)
      (formed_of_mem_classes h hc) hbody hinjection) (ih hhooked)

theorem mem_hookClasses : c ∈ file.hookClasses ↔
    c ∈ file.classes ∧ HasHook file.text.toList c := by
  simp [hookClasses]

theorem hasPlace_of_gets (h : Reader.Sound) (hc : c ∈ file.classes)
    (hgets : Gets file.text.toList c (some r)) :
    CanInsert file.text.toList r ∧ HasPlace c r.range.start :=
  hgets.hasPlace (within_of_mem h (mem_classes.1 hc).1) (mem_classes.1 hc).2
    (formed_of_mem_classes h hc)

/-- What classes get is apart where the places of the classes are. -/
theorem pairwise_given (h : Reader.Sound) {classes : List Node}
    (hgets : List.Forall₂ (Gets file.text.toList) classes given)
    (hclasses : ∀ c ∈ classes, c ∈ file.classes)
    (hp : classes.Pairwise fun c d => ∀ p q, HasPlace c p → HasPlace d q → p ≠ q) :
    given.reduceOption.Pairwise fun q r => q.range.start ≠ r.range.start := by
  induction hgets with
  | nil => exact .nil
  | @cons c g classes given hget hrest ih =>
    obtain ⟨hc, hclasses⟩ := List.forall_mem_cons.1 hclasses
    obtain ⟨hfirst, hp⟩ := List.pairwise_cons.1 hp
    cases g with
    | none => exact ih hclasses hp
    | some q =>
      rw [List.reduceOption_cons_of_some]
      refine .cons (fun r hr => ?_) (ih hclasses hp)
      obtain ⟨d, hd, hget'⟩ := exists_of_mem_given hrest hr
      exact hfirst d hd _ _ (hasPlace_of_gets h hc hget).2
        (hasPlace_of_gets h (hclasses d hd) hget').2

/-- All of it can be inserted, each in another place. -/
theorem apart_of_gets (h : Reader.Sound)
    (hgets : List.Forall₂ (Gets file.text.toList) file.hookClasses given)
    (hroute : file.GetsImport route) :
    (∀ r ∈ given.reduceOption ++ route.toList, CanInsert file.text.toList r) ∧
      (given.reduceOption ++ route.toList).Pairwise fun q r => q.range.start ≠ r.range.start := by
  have hplace {r : Replacement} (hr : r ∈ given.reduceOption) : ∃ c ∈ file.classes,
      CanInsert file.text.toList r ∧ HasPlace c r.range.start := by
    obtain ⟨c, hc, hget⟩ := exists_of_mem_given hgets hr
    have hc := (mem_hookClasses.1 hc).1
    exact ⟨c, hc, hasPlace_of_gets h hc hget⟩
  have hapart {r : Replacement} (hr : r ∈ route.toList) :=
    (Option.mem_toList.1 hr ▸ hroute : file.GetsImport (some r)).apart h
  constructor
  · intro r hr
    rcases List.mem_append.1 hr with hr | hr
    · obtain ⟨c, hc, hcan, -⟩ := hplace hr
      exact hcan
    · exact (hapart hr).1
  · refine List.pairwise_append.2 ⟨?_, ?_, fun q hq r hr => ?_⟩
    · exact pairwise_given h hgets (fun c hc => (mem_hookClasses.1 hc).1)
        ((file.pairwise_places h).filter _)
    · cases route <;> simp
    · obtain ⟨c, hc, -, hp⟩ := hplace hq
      exact (hapart hr).2 c hc _ hp

/-- Each class that has the hook gets what it needs, if none keeps the hook from being migrated. -/
theorem exists_gets (h : Reader.Sound)
    (hsupported : ∀ c ∈ file.hookClasses, ¬ IsUnsupported file.text.toList c) :
    ∃ given, (file.hooked.mapM fun i => injection file.path file.text.toList i.1 i.2) = .ok given ∧
      List.Forall₂ (Gets file.text.toList) file.hookClasses given := by
  cases hgiven : file.hooked.mapM fun i => injection file.path file.text.toList i.1 i.2 with
  | ok given =>
    have hgets := gets_of_injections h (fun _ hi => hi) (mapM_eq_ok.1 hgiven)
    rw [map_hooked file h] at hgets
    exact ⟨given, rfl, hgets⟩
  | error e =>
    obtain ⟨⟨c, body⟩, hi, hinjection⟩ := exists_of_mapM_eq_error hgiven
    obtain ⟨hc, hbody, hhas⟩ := (mem_hooked h).1 hi
    exact absurd (error_of_injection hbody hinjection).1
      (hsupported c (mem_hookClasses.2 ⟨hc, hhas⟩))

/-- Without a class that keeps the hook from being migrated, the file is read again with insertions
    made. -/
theorem inserts_of_supported (h : Reader.Sound) (hhooked : file.hooked ≠ [])
    (hsupported : ∀ c ∈ file.hookClasses, ¬ IsUnsupported file.text.toList c) :
    ∃ given route text, file.Inserts given route text ∧
      file.migrateParamsHook = parse file.path text := by
  obtain ⟨given, hgiven, hgets⟩ := exists_gets h hsupported
  have hedits : file.hookEdits = .ok (given.reduceOption ++ file.routeImport?.toList) := by
    rw [hookEdits, if_neg (by simpa using hhooked), hgiven]
    rfl
  obtain ⟨⟨c, body⟩, hi⟩ := List.exists_mem_of_ne_nil _ hhooked
  obtain ⟨first, hfirst, -⟩ := first_of_class h ((mem_hooked h).1 hi).1
  have hroute := getsImport_routeImport? (List.ne_nil_of_mem (List.mem_of_mem_head? hfirst))
  obtain ⟨hcan, hapart⟩ := apart_of_gets h hgets hroute
  obtain ⟨text, applied, hperm, happly, hsimultaneous⟩ := applyEdits_of_apart hcan hapart
  refine ⟨given, file.routeImport?, text, ⟨hgets, hroute, fun r hr => (hcan r hr).insertion, hapart,
    ⟨applied, hperm, happly⟩, hsimultaneous⟩, ?_⟩
  rw [migrateParamsHook, hedits]
  simp only
  rw [edited_eq_parse happly]

theorem migrateParamsHook_of_hooked_eq_nil (h : file.hooked = []) :
    file.migrateParamsHook = .ok file := by
  rw [migrateParamsHook, hookEdits, if_pos (by simp [h])]
  rfl

/-- The hook is migrated if the insertions for it come to a text that can be read. -/
theorem migrateParamsHook_of {rs : List Replacement} (hedits : file.hookEdits = .ok rs)
    (haddr : ∀ r ∈ rs, Addressable file.text.toList r.range) (hpath : done.path = file.path)
    (htext : done.text.toList = (made rs).foldl splice file.text.toList) :
    file.migrateParamsHook = .ok done := by
  rw [migrateParamsHook, hedits]
  exact edited_of haddr hpath htext

/-- A class that keeps the hook from being migrated is reported, or another one like it. -/
theorem error_of_unsupported (h : Reader.Sound)
    (hsome : ∃ c ∈ file.hookClasses, IsUnsupported file.text.toList c) :
    ∃ c ∈ file.hookClasses, IsUnsupported file.text.toList c ∧
      file.migrateParamsHook = .error (.unsupportedConstructor file.path
        (String.ofList (c.fieldText file.text.toList .name))) := by
  obtain ⟨c, hc, hunsupported⟩ := hsome
  obtain ⟨hc, hhas⟩ := mem_hookClasses.1 hc
  obtain ⟨body, hbody⟩ := exists_of_hasHook hhas
  have hi : (c, body) ∈ file.hooked := (mem_hooked h).2 ⟨hc, hbody, hhas⟩
  cases hgiven : file.hooked.mapM fun i => injection file.path file.text.toList i.1 i.2 with
  | ok given =>
    obtain ⟨g, -, hg⟩ := exists_of_mem_steps (mapM_eq_ok.1 hgiven) hi
    rw [injection_of_isUnsupported hbody hunsupported] at hg
    cases hg
  | error e =>
    obtain ⟨⟨d, body'⟩, hd, herror⟩ := exists_of_mapM_eq_error hgiven
    obtain ⟨hd, hbody', hhas'⟩ := (mem_hooked h).1 hd
    obtain ⟨hunsupported', rfl⟩ := error_of_injection hbody' herror
    refine ⟨d, mem_hookClasses.2 ⟨hd, hhas'⟩, hunsupported', ?_⟩
    rw [migrateParamsHook, hookEdits, if_neg (by simpa using List.ne_nil_of_mem hi), hgiven]
    rfl

/-- What a file is that the hook was migrated in. -/
theorem inserts_of_eq_ok (h : Reader.Sound) (hhooked : file.hooked ≠ [])
    (hdone : file.migrateParamsHook = .ok done) :
    done.path = file.path ∧ ∃ given route, file.Inserts given route done.text := by
  have hsupported : ∀ c ∈ file.hookClasses, ¬ IsUnsupported file.text.toList c := by
    intro c hc hbad
    obtain ⟨d, -, -, herror⟩ := error_of_unsupported h ⟨c, hc, hbad⟩
    rw [herror] at hdone
    cases hdone
  obtain ⟨given, route, text, hinserts, hparse⟩ := inserts_of_supported h hhooked hsupported
  obtain ⟨hpath, htext⟩ := of_parse (hparse.symm.trans hdone)
  exact ⟨hpath, given, route, htext ▸ hinserts⟩

end SourceFile

/-- What becomes of a file when the hook is migrated, for every reader that keeps to the grammar.
    Without a class that has the hook the file stays as it is. There is an error for a class that
    has the hook and a base class but no constructor, and it is for one of these; otherwise the file
    is its text with insertions made, which is no file only if the result cannot be read. -/
theorem migrateParamsHook_inserts (h : Reader.Sound) (file : SourceFile) :
    ((∀ c ∈ file.classes, ¬ HasHook file.text.toList c) → file.migrateParamsHook = .ok file) ∧
    (∀ done, (∃ c ∈ file.classes, HasHook file.text.toList c) →
      file.migrateParamsHook = .ok done →
        done.path = file.path ∧ ∃ given route, file.Inserts given route done.text) ∧
    ((∃ path name, file.migrateParamsHook = .error (.unsupportedConstructor path name)) ↔
      ∃ c ∈ file.classes, HasHook file.text.toList c ∧ IsUnsupported file.text.toList c) ∧
    (∀ e, file.migrateParamsHook = .error e →
      (∃ c ∈ file.classes, HasHook file.text.toList c ∧ IsUnsupported file.text.toList c ∧
        e = .unsupportedConstructor file.path
          (String.ofList (c.fieldText file.text.toList .name))) ∨
      e = .notValid file.path ∧ ∃ given route text, file.Inserts given route text ∧
        Reader.read? text = none) := by
  rw [← SourceFile.hooked_eq_nil_iff h]
  have hsome : (∃ c ∈ file.classes, HasHook file.text.toList c) ↔ file.hooked ≠ [] := by
    rw [Ne, SourceFile.hooked_eq_nil_iff h]
    simp
  have hmem {p : Node → Prop} : (∃ c ∈ file.classes, HasHook file.text.toList c ∧ p c) ↔
      ∃ c ∈ file.hookClasses, p c := by
    simp only [SourceFile.mem_hookClasses, and_assoc]
  simp only [hsome, hmem]
  by_cases hnone : file.hooked = []
  · have hsame := SourceFile.migrateParamsHook_of_hooked_eq_nil hnone
    have hclasses : file.hookClasses = [] := by rw [← file.map_hooked h, hnone, List.map_nil]
    rw [hsame, hclasses]
    refine ⟨fun _ => rfl, fun _ h => absurd hnone h, ⟨?_, ?_⟩, nofun⟩
    · rintro ⟨path, name, ⟨⟩⟩
    · rintro ⟨c, hc, -⟩
      cases hc
  refine ⟨fun h => absurd h hnone, fun done _ => SourceFile.inserts_of_eq_ok h hnone, ?_⟩
  by_cases hunsupported : ∃ c ∈ file.hookClasses, IsUnsupported file.text.toList c
  · obtain ⟨c, hc, hbad, herror⟩ := SourceFile.error_of_unsupported h hunsupported
    rw [herror]
    refine ⟨⟨fun _ => hunsupported, fun _ => ⟨_, _, rfl⟩⟩, fun e he => ?_⟩
    exact .inl ⟨c, hc, hbad, (Except.error.inj he).symm⟩
  · have hsupported : ∀ c ∈ file.hookClasses, ¬ IsUnsupported file.text.toList c :=
      fun c hc hbad => hunsupported ⟨c, hc, hbad⟩
    obtain ⟨given, route, text, hinserts, hparse⟩ := SourceFile.inserts_of_supported h hnone hsupported
    rw [hparse]
    refine ⟨⟨?_, fun hbad => absurd hbad hunsupported⟩, fun e he => .inr ?_⟩
    · rintro ⟨path, name, he⟩
      cases (SourceFile.parse_eq_error he).1
    · obtain ⟨rfl, hinvalid⟩ := SourceFile.parse_eq_error he
      exact ⟨rfl, given, route, text, hinserts, hinvalid⟩

end

theorem migrateParamsHook_inserts_constructor :
    (∃ file done : SourceFile, file.text =
        "import\x7bActivatedRoute\x7dfrom'@angular/router'\nclass A\x7buiOnParamsChanged()\x7b\x7d\x7d" ∧
      file.migrateParamsHook = .ok done ∧ ∃ given route, file.Inserts given route done.text) ∧
    ∃ file : SourceFile, file.text = "class A extends B\x7buiOnParamsChanged()\x7b\x7d\x7d" ∧
      file.migrateParamsHook = .error (.unsupportedConstructor ⟨"a.ts"⟩ "A") := by
  constructor
  · let file := SourceFile.ofText ⟨"a.ts"⟩
      "import\x7bActivatedRoute\x7dfrom'@angular/router'\nclass A\x7buiOnParamsChanged()\x7b\x7d\x7d"
      (by decide +kernel)
    let done := SourceFile.ofText ⟨"a.ts"⟩
      ("import\x7bActivatedRoute\x7dfrom'@angular/router'\nclass A\x7b\n        " ++
        "constructor(private activatedRoute: ActivatedRoute) \x7b\x7d\n" ++
        "uiOnParamsChanged()\x7b\x7d\x7d") (by decide +kernel)
    have hedits : file.hookEdits = .ok [.insert 52
        "\n        constructor(private activatedRoute: ActivatedRoute) \x7b\x7d\n"] := by
      decide +kernel
    have hdone : file.migrateParamsHook = .ok done :=
      SourceFile.migrateParamsHook_of hedits (by decide +kernel) (by decide +kernel)
        (by decide +kernel)
    obtain ⟨-, hinserts, -, -⟩ := migrateParamsHook_inserts grammarReader_sound file
    exact ⟨file, done, rfl, hdone, (hinserts done (by decide +kernel) hdone).2⟩
  · let file := SourceFile.ofText ⟨"a.ts"⟩ "class A extends B\x7buiOnParamsChanged()\x7b\x7d\x7d"
      (by decide +kernel)
    obtain ⟨-, -, hunsupported, herrors⟩ := migrateParamsHook_inserts grammarReader_sound file
    obtain ⟨path, name, herror⟩ := hunsupported.2 (by decide +kernel)
    have hname : ∀ c ∈ file.classes, String.ofList (c.fieldText file.text.toList .name) = "A" := by
      decide +kernel
    refine ⟨file, rfl, herror.trans ?_⟩
    rcases herrors _ herror with ⟨c, hc, -, -, heq⟩ | ⟨heq, -⟩
    · rw [heq, hname c hc]
      rfl
    · cases heq

end RouterShift.TypeScript
