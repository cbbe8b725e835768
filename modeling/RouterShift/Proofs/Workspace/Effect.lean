import RouterShift.Proofs.Workspace.Changes

/-! What a migration does to files in memory. A plan that fails leaves everything as it is, and so
    does a dry run. A real run has the report of the dry one and writes what is in it, and nothing
    else; if no template is a source, each file of the report ends up as the report says
    (`migrate_effect`). -/

namespace RouterShift.Workspace

open TypeScript (SourceFile)

/-- The files with some changes written, one after the other. -/
def FileMap.written (changes : List FileChange) (m : FileMap) : FileMap :=
  changes.foldl (fun m c => m.insert c.path c.after) m

section
variable {changes : List FileChange} {m : FileMap} {p : Path}

/-- A path that no change is about keeps its text. -/
theorem FileMap.get?_written_of_not (h : ∀ c ∈ changes, c.path.sameAs p = false) :
    (m.written changes).get? p = m.get? p := by
  induction changes generalizing m with
  | nil => rfl
  | cons c changes ih =>
    have hrest := ih (fun d hd => h d (List.mem_cons_of_mem c hd)) (m := m.insert c.path c.after)
    exact hrest.trans (get?_insert_of_not (h c List.mem_cons_self))

/-- Of changes to different files each one is there in the end. -/
theorem FileMap.get?_written (h : Distinct (changes.map (·.path))) {c : FileChange}
    (hc : c ∈ changes) : (m.written changes).get? c.path = some c.after := by
  induction changes generalizing m with
  | nil => cases hc
  | cons d changes ih =>
    obtain ⟨hd, hrest⟩ := List.pairwise_cons.1 h
    rcases List.mem_cons.1 hc with rfl | hc
    · have hlater (e : FileChange) (he : e ∈ changes) : e.path.sameAs c.path = false := by
        rw [Path.sameAs_comm]
        exact hd e.path (List.mem_map_of_mem he)
      exact (get?_written_of_not hlater).trans (get?_insert_self (Path.sameAs_refl _))
    · exact ih hrest hc

end

section
variable (files : FileMap) (behind : Entry) (directory : Path)

/-- In memory every report can be written. -/
theorem apply_memory (report : Report) : apply (.memory files behind directory) report =
    .ok (.memory (files.written report.changes) behind directory,
      { report with applied := true }) := by
  have hwrites (changes : List FileChange) (m : FileMap) :
      changes.foldlM (fun (t : Tree) c => (t.write c.path c.after).mapError (.writing c.path))
        (.memory m behind directory) =
      (.ok (.memory (m.written changes) behind directory) : Except Failure Tree) := by
    induction changes generalizing m with
    | nil => rfl
    | cons c changes ih =>
      rw [List.foldlM_cons]
      exact ih (m.insert c.path c.after)
  simp only [apply, hwrites]
  rfl

variable [TypeScript.Reader]

/-- What a migration with a report comes to; `paths` are the sources that were visited, `files'` the
    files after a real run. -/
structure Effect (roots : List Path) (report : Report) (paths : List Path) (files' : FileMap) :
    Prop where
  sources : ∀ p ∈ paths, IsSource files roots p
  dryRun : migrate (.memory files behind directory) roots true =
    .ok (.memory files behind directory, report)
  realRun : migrate (.memory files behind directory) roots false =
    .ok (.memory files' behind directory, { report with applied := true })
  justified : ∀ c ∈ report.changes, Justified (.memory files behind directory) paths c
  unlisted : ∀ p, (∀ c ∈ report.changes, c.path.sameAs p = false) → files'.get? p = files.get? p
  listed : TemplatesApart (.memory files behind directory) paths →
    Distinct (report.changes.map (·.path)) ∧
      ∀ c ∈ report.changes, files'.get? c.path = some c.after

/-- A migration in memory fails only if its plan does, and then there is no tree but the old one;
    otherwise it has its effect. -/
theorem migrate_effect (roots : List Path) :
    (∀ e dryRun, plan (.memory files behind directory) roots = .error e →
      migrate (.memory files behind directory) roots dryRun = .error e) ∧
    ∀ report, plan (.memory files behind directory) roots = .ok report →
      ∃ paths files', sources (.memory files behind directory) roots = .ok paths ∧
        Effect files behind directory roots report paths files' := by
  refine ⟨fun e dryRun hplan => ?_, fun report hplan => ?_⟩
  · rw [migrate, hplan]
    rfl
  · have hplanned := hplan
    simp only [plan_eq, bind_eq_ok] at hplanned
    obtain ⟨paths, hpaths, -⟩ := hplanned
    obtain ⟨hdistinct, hsources⟩ := sources_memory hpaths
    obtain ⟨hjustified, hapart⟩ := plan_changes hplan hpaths hdistinct
    refine ⟨paths, files.written report.changes, hpaths, hsources, ?_, ?_, hjustified, ?_, ?_⟩
    · rw [migrate, hplan]
      rfl
    · rw [migrate, hplan]
      exact apply_memory files behind directory report
    · exact fun p hp => FileMap.get?_written_of_not hp
    · exact fun h => ⟨hapart h, fun c hc => FileMap.get?_written (hapart h) hc⟩

end

/-! ### A template that two sources share -/

/-- A component with its template in a file. -/
def externalComponent (url className : String) : String :=
  "@Component(\x7btemplateUrl:'" ++ url ++ "'\x7d)class " ++ className ++ "\x7b\x7d"

/-- Two components that share a template, and a hidden one. -/
def sharedFiles : FileMap :=
  [(⟨".c/c.ts"⟩, externalComponent "../v.html" "C"), (⟨"a/a.ts"⟩, externalComponent "../v.html" "A"),
    (⟨"b.ts"⟩, externalComponent "./v.html" "B"), (⟨"v.html"⟩, "<ui-view/>")]

def sharedReport : Report where
  filesScanned := 2
  candidates := 2
  templateTargets := 2
  changes := [⟨⟨"v.html"⟩, .template, "<ui-view/>", "<router-outlet/>"⟩]

def sharedTree : Tree := .memory sharedFiles (.directory []) ⟨"/"⟩

theorem sources_shared :
    sources sharedTree [⟨"a"⟩, ⟨"."⟩] = .ok [⟨"a/a.ts"⟩, ⟨"b.ts"⟩] := by decide +kernel

theorem locations_shared : ∀ source ∈ [(⟨"a/a.ts"⟩ : Path), ⟨"b.ts"⟩],
    ((sharedTree.read source).bind fun text => (SourceFile.parse source text).toOption).map
      (fun file => file.components.map fun c => c.template.map TypeScript.TemplateSource.location) =
        some [some (.external ⟨"v.html"⟩)] := by decide +kernel

theorem templatesApart_shared : TemplatesApart sharedTree [⟨"a/a.ts"⟩, ⟨"b.ts"⟩] := by
  rintro template ⟨source, hsource, text, hread, -, file, c, url, hfile, hc, htemplate, -⟩
  have hlocations := locations_shared source hsource
  simp only [hread, Option.bind_some, hfile, Except.toOption, Option.map_some,
    Option.some.injEq] at hlocations
  have hlocation : some (.external template) ∈
      file.components.map fun c => c.template.map TypeScript.TemplateSource.location :=
    List.mem_map.2 ⟨c, hc, by rw [htemplate]; rfl⟩
  rw [hlocations] at hlocation
  obtain rfl : template = ⟨"v.html"⟩ := by simpa using hlocation
  decide +kernel

/-- The roots overlap, and both components name the template; it is changed once. -/
theorem migrate_effect_shared :
    plan sharedTree [⟨"a"⟩, ⟨"."⟩] = .ok sharedReport ∧
      ∃ files', Effect sharedFiles (.directory []) ⟨"/"⟩ [⟨"a"⟩, ⟨"."⟩] sharedReport
          [⟨"a/a.ts"⟩, ⟨"b.ts"⟩] files' ∧
        files'.get? ⟨"v.html"⟩ = some "<router-outlet/>" := by
  have hplan : plan sharedTree [⟨"a"⟩, ⟨"."⟩] = .ok sharedReport :=
    Markup.eq_ok_of_toOption (by decide +kernel)
  obtain ⟨paths, files', hpaths, heffect⟩ :=
    (migrate_effect sharedFiles (.directory []) ⟨"/"⟩ [⟨"a"⟩, ⟨"."⟩]).2 sharedReport hplan
  obtain rfl : [⟨"a/a.ts"⟩, ⟨"b.ts"⟩] = paths := Except.ok.inj (sources_shared.symm.trans hpaths)
  obtain ⟨-, hlisted⟩ := heffect.listed templatesApart_shared
  exact ⟨hplan, files', heffect, hlisted _ List.mem_cons_self⟩

end RouterShift.Workspace
