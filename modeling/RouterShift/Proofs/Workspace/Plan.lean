import Mathlib.Data.List.Induction
import RouterShift.Proofs.Markup.Migration
import RouterShift.Proofs.TypeScript.Forms
import RouterShift.Proofs.Workspace.Templates

/-! Sources in a plan. A plan visits one source after another; what it makes of a source does not
    depend on the others, so the report has one change of it at most, and that change is to the file
    that the source alone is migrated to. -/

namespace RouterShift.Workspace

open TypeScript (SourceFile Literal FoundThroughout)

section
variable [TypeScript.Reader]

/-! ### All sources -/

/-- What the migration does to one path, in the course of a plan. -/
def visit (t : Tree) (draft : Draft) (path : Path) : Except Failure Draft :=
  match t.read path with
  | none => .ok draft
  | some text => migrateSource t path text draft

theorem plan_eq (t : Tree) (roots : List Path) : plan t roots = (do
    let paths ← sources t roots
    let draft ← paths.foldlM (visit t) { report := { filesScanned := paths.length } }
    return draft.report) := rfl

/-- A visit leaves the draft as it was where nothing is to be read, and else migrates the source. -/
theorem visit_eq_ok {t : Tree} {draft draft' : Draft} {path : Path}
    (h : visit t draft path = .ok draft') :
    (t.read path = none ∧ draft' = draft) ∨
      ∃ text, t.read path = some text ∧ migrateSource t path text draft = .ok draft' := by
  rw [visit] at h
  cases hread : t.read path with
  | none =>
    rw [hread] at h
    exact .inl ⟨rfl, (Except.ok.inj h).symm⟩
  | some text =>
    rw [hread] at h
    exact .inr ⟨text, rfl, h⟩

/-- What every visit keeps, of the paths that were visited before and the draft, holds in the end. -/
theorem visits_induction {t : Tree} {draft : Draft} {P : List Path → Draft → Prop}
    {paths : List Path} (hstart : P [] draft)
    (hvisit : ∀ visited path d d', visited ++ [path] <+: paths → visit t d path = .ok d' →
      P visited d → P (visited ++ [path]) d')
    {draft' : Draft} (h : paths.foldlM (visit t) draft = .ok draft') : P paths draft' := by
  induction paths using List.reverseRecOn generalizing draft' with
  | nil =>
    cases h
    exact hstart
  | append_singleton init path ih =>
    rw [List.foldlM_append] at h
    obtain ⟨next, hinit, hlast⟩ := bind_eq_ok.1 h
    obtain ⟨last, hpath, hlast⟩ := foldlM_cons_eq_ok.1 hlast
    cases hlast
    refine hvisit init path next _ List.prefix_rfl hpath (ih (fun visited q d d' hq => ?_) hinit)
    exact hvisit visited q d d' (hq.trans (List.prefix_append init [path]))

/-- Every path of a plan is visited. -/
theorem exists_visit {t : Tree} {paths : List Path} {draft draft' : Draft}
    (h : paths.foldlM (visit t) draft = .ok draft') :
    ∀ path ∈ paths, ∃ d d', visit t d path = .ok d' := by
  refine visits_induction (P := fun visited _ => ∀ path ∈ visited, ∃ d d', visit t d path = .ok d')
    (by simp) (fun visited path d d' _ hvisit hvisited q hq => ?_) h
  rcases List.mem_append.1 hq with hq | hq
  · exact hvisited q hq
  · exact ⟨d, d', List.mem_singleton.1 hq ▸ hvisit⟩

section
variable {t : Tree} {path : Path} {text : String} {file done : SourceFile}

/-- The changes of one source that a visit adds: its own when it is visited, else none. -/
theorem mem_changes_visit (hread : t.read path = some text)
    (hfile : SourceFile.parse path text = .ok file) (hdone : migrateFile t file = .ok done)
    (hmarked : Text.mentions Vocabulary.componentMarker.toList text.toList = true)
    {draft draft' : Draft} {q : Path} (h : visit t draft q = .ok draft') {change : FileChange}
    (hrole : change.role = .source) (hpath : change.path = path) :
    change ∈ draft'.report.changes ↔
      change ∈ draft.report.changes ∨ (path = q ∧ change ∈ ownChange path text done) := by
  rcases visit_eq_ok h with ⟨hq, rfl⟩ | ⟨text', hq, h⟩
  · have hne : path ≠ q := by
      rintro rfl
      rw [hread] at hq
      cases hq
    simp [hne]
  · rcases migrateSource_eq_ok h with ⟨hunmarked, rfl⟩ |
      ⟨file', done', others, hfile', -, hdone', hchanges, htemplates⟩
    · have hne : path ≠ q := by
        rintro rfl
        rw [hread, Option.some.injEq] at hq
        rw [hq, hunmarked] at hmarked
        cases hmarked
      simp [hne]
    · have hother : change ∉ others := by
        intro hmem
        rw [htemplates change hmem] at hrole
        cases hrole
      rw [hchanges, List.mem_append, List.mem_append]
      refine or_congr_right ?_
      simp only [hother, or_false]
      by_cases hpq : path = q
      · subst hpq
        obtain rfl : text = text' := Option.some.inj (hread.symm.trans hq)
        obtain rfl : file = file' := Except.ok.inj (hfile.symm.trans hfile')
        obtain rfl : done = done' := Except.ok.inj (hdone.symm.trans hdone')
        simp
      · have hnone : change ∉ ownChange q text' done' := by
          intro hmem
          rw [ownChange] at hmem
          split at hmem
          · cases hmem
          · rw [List.mem_singleton.1 hmem] at hpath
            exact hpq hpath.symm
        simp [hpq, hnone]

/-- The changes of one source that a plan makes. -/
theorem mem_changes_visits (hread : t.read path = some text)
    (hfile : SourceFile.parse path text = .ok file) (hdone : migrateFile t file = .ok done)
    (hmarked : Text.mentions Vocabulary.componentMarker.toList text.toList = true)
    {paths : List Path} {draft draft' : Draft} (h : paths.foldlM (visit t) draft = .ok draft')
    {change : FileChange} (hrole : change.role = .source) (hpath : change.path = path) :
    change ∈ draft'.report.changes ↔
      change ∈ draft.report.changes ∨ (path ∈ paths ∧ change ∈ ownChange path text done) := by
  refine visits_induction (P := fun visited d => change ∈ d.report.changes ↔
    change ∈ draft.report.changes ∨ (path ∈ visited ∧ change ∈ ownChange path text done))
    (by simp) (fun visited q d d' _ hvisit hvisited => ?_) h
  rw [mem_changes_visit hread hfile hdone hmarked hvisit hrole hpath, hvisited, List.mem_append,
    List.mem_singleton]
  tauto

/-- A plan for a workspace with a single source that has a single template to migrate, an inline
    one. -/
theorem plan_of_source {roots : List Path} {target : Target} {m : String} {spliced : SourceFile}
    (hsources : sources t roots = .ok [path]) (hread : t.read path = some text)
    (hfile : SourceFile.parse path text = .ok file) (htargets : targetsOf t file = [target])
    (hinline : target.location = .inline) (hm : Markup.migrate target.text = .ok m)
    (hs : file.spliceTemplate target.className m = .ok spliced)
    (hdone : (if Text.mentions Vocabulary.routerMarker.toList text.toList then
      spliced.migrateParamsHook else .ok spliced) = .ok done) :
    ∃ report, plan t roots = .ok report ∧ report.changes = ownChange path text done := by
  obtain ⟨-, rfl⟩ := SourceFile.of_parse hfile
  have hmarked : Text.mentions Vocabulary.componentMarker.toList file.text.toList = true := by
    by_contra hno
    rw [targetsOf, if_neg hno] at htargets
    cases htargets
  rw [targetsOf, if_pos hmarked] at htargets
  have htarget : migrateTarget path (file, [], []) target = .ok (spliced, [], []) := by
    simp [migrateTarget, hm, hinline, spliceTarget, hs, Except.mapError, bind, Except.bind, pure,
      Except.pure]
  simp only [plan_eq, hsources, bind, Except.bind, List.foldlM_cons, List.foldlM_nil, visit, hread,
    migrateSource, hmarked, Bool.not_true, Bool.and_false, Bool.false_eq_true, if_false, hfile,
    Except.mapError, if_true, htargets, htarget, pure, Except.pure]
  split at hdone
  · next hrouter =>
    simp [hrouter, hookFile, hdone, Except.mapError, ownChange]
  · next hrouter =>
    cases hdone
    simp [hrouter, ownChange]

/-- In a plan, every visited source that declares components is changed to a file in which each
    component has the migration of its own inline template: that file has the components of the
    source, in their order and under their names; an inline template that mentions the vocabulary
    is written anew from what it said, and says just that unless a delimiter is hidden behind a
    backslash; every other inline template is what it was. The names have to lead to the templates,
    and the reader has to keep to the grammar and find the components of a changed file where the
    changes have moved them. -/
theorem plan_migrates_templates {roots paths : List Path} {report : Report}
    (hplan : plan t roots = .ok report) (hpaths : sources t roots = .ok paths)
    (hpath : path ∈ paths) (hread : t.read path = some text)
    (hfile : SourceFile.parse path text = .ok file)
    (hmarked : Text.mentions Vocabulary.componentMarker.toList text.toList = true)
    (hsound : TypeScript.Reader.Sound) (hnames : NamesLead file) (halike : ReadsAlike t file) :
    ∃ done : SourceFile, done.path = path ∧
      (∀ change : FileChange, change.role = .source → change.path = path →
        (change ∈ report.changes ↔ done.text ≠ text ∧ change = ⟨path, .source, text, done.text⟩)) ∧
      List.Forall₂ (TypeScript.Component.Matches Migrated) file.components done.components := by
  simp only [plan_eq, hpaths, bind_eq_ok, pure_eq_ok, Except.ok.injEq] at hplan
  obtain ⟨_, rfl, draft, hvisits, rfl⟩ := hplan
  obtain ⟨d, d', hvisit⟩ := exists_visit hvisits path hpath
  simp only [visit, hread] at hvisit
  obtain ⟨hfilePath, hfileText⟩ := SourceFile.of_parse hfile
  rcases migrateSource_eq_ok hvisit with ⟨hunmarked, -⟩ |
    ⟨file', done, others, hfile', hmigrates, hdone, -, -⟩
  · rw [hmarked] at hunmarked
    cases hunmarked
  · obtain rfl : file = file' := Except.ok.inj (hfile.symm.trans hfile')
    obtain ⟨hdonePath, hmatches⟩ :=
      migrateFile_matches hdone (hfileText ▸ hmarked) hmigrates hsound hnames halike
    refine ⟨done, hdonePath.trans hfilePath, fun change hrole hchange => ?_, hmatches⟩
    rw [mem_changes_visits hread hfile hdone hmarked hvisits hrole hchange, ownChange]
    split <;> simp_all

end
end

/-! ### Workspaces with one source -/

/-- A workspace in memory with nothing behind it. -/
def oneSource (text : String) : Tree := .memory [(⟨"a.ts"⟩, text)] (.directory []) ⟨"/"⟩

theorem sources_oneSource (text : String) : sources (oneSource text) [] = .ok [⟨"a.ts"⟩] := by cbv

theorem read_oneSource (text : String) : (oneSource text).read ⟨"a.ts"⟩ = some text := by
  simp [oneSource, Tree.read, FileMap.get?, Path.sameAs]

/-- An empty class with a component decorator. -/
def emptyComponent (template className : String) : String :=
  "@Component(\x7btemplate:'" ++ template ++ "'\x7d)class " ++ className ++ "\x7b\x7d"

theorem migrate_view : Markup.migrate "<ui-view/>" = .ok "<router-outlet/>" :=
  Markup.eq_ok_of_toOption (by decide +kernel)

theorem inlineSplices_view (className : String) :
    inlineSplices [⟨className, .inline, "<ui-view/>"⟩] = [(className, "<router-outlet/>")] := by
  simp [inlineSplices, migrate_view, Except.toOption]

/-- Two components, the first of them with an outlet to migrate. -/
def viewFile : SourceFile := .ofText ⟨"a.ts"⟩
  ("//@uirouter\n" ++ emptyComponent "<ui-view/>" "A" ++ emptyComponent "<p/>" "B")
  (by decide +kernel)

def viewFileDone : SourceFile := .ofText ⟨"a.ts"⟩
  ("//@uirouter\n" ++ emptyComponent "<router-outlet/>" "A" ++ emptyComponent "<p/>" "B")
  (by decide +kernel)

/-- A component whose template stands in single quotes. -/
def quotedComponent (className : String) (start : Nat) (raw : String) : TypeScript.Component :=
  ⟨className, some (.inline ⟨⟨start, start + Text.byteLength raw.toList⟩, '\'', raw⟩)⟩

theorem viewFile_components : viewFile.components =
    [quotedComponent "A" 34 "<ui-view/>", quotedComponent "B" 78 "<p/>"] := by
  decide +kernel

theorem viewFileDone_components : viewFileDone.components =
    [quotedComponent "A" 34 "<router-outlet/>", quotedComponent "B" 84 "<p/>"] := by
  decide +kernel

theorem plan_migrates_templates_view : ∃ report done,
    plan (oneSource viewFile.text) [] = .ok report ∧
    NamesLead viewFile ∧ ReadsAlike (oneSource viewFile.text) viewFile ∧
    SourceFile.path done = viewFile.path ∧
    (∀ change : FileChange, change.role = .source → change.path = viewFile.path →
      (change ∈ report.changes ↔
        done.text ≠ viewFile.text ∧ change = ⟨viewFile.path, .source, viewFile.text, done.text⟩)) ∧
    List.Forall₂ (TypeScript.Component.Matches Migrated) viewFile.components done.components := by
  have htargets : targetsOf (oneSource viewFile.text) viewFile =
      [⟨"A", .inline, "<ui-view/>"⟩] := by
    rw [targetsOf, viewFile_components]
    decide +kernel
  have hlead : viewFile.inlineTemplate? "A" = some ⟨⟨34, 44⟩, '\'', "<ui-view/>"⟩ := by
    rw [SourceFile.inlineTemplate?_eq, viewFile_components]
    decide +kernel
  have hs : viewFile.spliceTemplate "A" "<router-outlet/>" = .ok viewFileDone :=
    SourceFile.spliceTemplate_of hlead (by decide +kernel) (by decide +kernel)
      (by decide +kernel) (by decide +kernel)
  have hedits : viewFileDone.hookEdits = .ok [] := by decide +kernel
  have hedited : viewFileDone.edited [] = .ok viewFileDone := rfl
  have hhook : viewFileDone.migrateParamsHook = .ok viewFileDone := by
    simp only [SourceFile.migrateParamsHook, hedits, hedited]
  obtain ⟨report, hplan, -⟩ := plan_of_source (sources_oneSource _) (read_oneSource _)
    viewFile.parse_self htargets rfl migrate_view hs (by rw [hhook, ite_self])
  have hnames : NamesLead viewFile := by
    intro c hc l hl hmentioned
    rw [viewFile_components, List.mem_cons, List.mem_singleton] at hc
    rcases hc with rfl | rfl
    · cases hl
      exact hlead
    · cases hl
      exact absurd hmentioned (by decide +kernel)
  have halike : ReadsAlike (oneSource viewFile.text) viewFile := by
    refine ⟨?_, ?_⟩
    · rw [htargets, inlineSplices_view]
      refine .single hlead hs ?_
      rw [TypeScript.FoundAgain, viewFile_components, viewFileDone_components]
      decide +kernel
    · intro _ spliced edits done hspliced hes hdone
      rw [htargets, inlineSplices_view, SourceFile.spliceAll, hs] at hspliced
      obtain rfl : viewFileDone = spliced := Except.ok.inj hspliced
      obtain rfl : [] = edits := Except.ok.inj (hedits.symm.trans hes)
      obtain rfl : viewFileDone = done := Except.ok.inj (hedited.symm.trans hdone)
      rw [Edit.made_nil, TypeScript.FoundAgain, viewFileDone_components]
      decide +kernel
  obtain ⟨done, hpath, hchanges, hmatches⟩ := plan_migrates_templates hplan (sources_oneSource _)
    List.mem_cons_self (read_oneSource _) viewFile.parse_self (by decide +kernel)
    TypeScript.grammarReader_sound hnames halike
  exact ⟨report, done, hplan, hnames, halike, hpath, hchanges, hmatches⟩

/-! ### Components of one name -/

/-- Two components of one name, each in a namespace of its own; the second has an outlet. -/
def namesakes (first : String) : String :=
  "namespace a\x7b" ++ emptyComponent first "A" ++ "\x7dnamespace b\x7b" ++
    emptyComponent "<ui-view/>" "A" ++ "\x7d"

def namesakesFile : SourceFile := .ofText ⟨"a.ts"⟩ (namesakes "<p/>") (by decide +kernel)

/-- The first of them has the template that the second one should get. -/
def namesakesConfused : SourceFile :=
  .ofText ⟨"a.ts"⟩ (namesakes "<router-outlet/>") (by decide +kernel)

theorem namesakesFile_components : namesakesFile.components =
    [quotedComponent "A" 34 "<p/>", quotedComponent "A" 85 "<ui-view/>"] := by
  decide +kernel

theorem namesakesConfused_components : namesakesConfused.components =
    [quotedComponent "A" 34 "<router-outlet/>", quotedComponent "A" 97 "<ui-view/>"] := by
  decide +kernel

/-- Of two components of one name the first gets what the second should get, although the grammar
    finds both again: the template that mentions the router stays, and the one that does not is
    overwritten. -/
theorem plan_confuses_namesakes : ∃ report,
    plan (oneSource namesakesFile.text) [] = .ok report ∧
    report.changes =
      [⟨namesakesFile.path, .source, namesakesFile.text, namesakesConfused.text⟩] ∧
    ReadsAlike (oneSource namesakesFile.text) namesakesFile ∧
    namesakesFile.components.map (fun c => (c.className, c.inline?.map Literal.value)) =
      [("A", some "<p/>"), ("A", some "<ui-view/>")] ∧
    namesakesConfused.components.map (fun c => (c.className, c.inline?.map Literal.value)) =
      [("A", some "<router-outlet/>"), ("A", some "<ui-view/>")] ∧
    ¬ List.Forall₂ (TypeScript.Component.Matches Migrated) namesakesFile.components
      namesakesConfused.components := by
  have htargets : targetsOf (oneSource namesakesFile.text) namesakesFile =
      [⟨"A", .inline, "<ui-view/>"⟩] := by
    rw [targetsOf, namesakesFile_components]
    decide +kernel
  have hlead : namesakesFile.inlineTemplate? "A" = some ⟨⟨34, 38⟩, '\'', "<p/>"⟩ := by
    rw [SourceFile.inlineTemplate?_eq, namesakesFile_components]
    decide +kernel
  have hs : namesakesFile.spliceTemplate "A" "<router-outlet/>" = .ok namesakesConfused :=
    SourceFile.spliceTemplate_of hlead (by decide +kernel) (by decide +kernel)
      (by decide +kernel) (by decide +kernel)
  have hrouter :
      ¬ Text.mentions Vocabulary.routerMarker.toList namesakesFile.text.toList = true := by
    decide +kernel
  obtain ⟨report, hplan, hchanges⟩ := plan_of_source (sources_oneSource _) (read_oneSource _)
    namesakesFile.parse_self htargets rfl migrate_view hs (by rw [if_neg hrouter])
  refine ⟨report, hplan, ?_, ⟨?_, fun hmentioned => absurd hmentioned hrouter⟩, ?_, ?_, ?_⟩
  · rw [hchanges]
    decide +kernel
  · rw [htargets, inlineSplices_view]
    refine .single hlead hs ?_
    rw [TypeScript.FoundAgain, namesakesFile_components, namesakesConfused_components]
    decide +kernel
  · rw [namesakesFile_components]
    decide +kernel
  · rw [namesakesConfused_components]
    decide +kernel
  · intro h
    rw [namesakesFile_components, namesakesConfused_components] at h
    obtain ⟨l, hl, hmigrated⟩ := (List.forall₂_cons.1 h).1.inline _ rfl
    cases hl
    exact absurd (hmigrated.unmentioned (by decide +kernel)).1 (by decide +kernel)

end RouterShift.Workspace
