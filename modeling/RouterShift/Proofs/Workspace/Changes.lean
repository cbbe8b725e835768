import RouterShift.Proofs.Workspace.Files
import RouterShift.Proofs.Workspace.Plan

/-! The changes of a plan. Each is to a source that was visited or to a template that one of them
    names, and tells what the file says now. Going through the sources one by one, a plan never
    changes a template twice; so if no template is a source, it changes every file once at most
    (`plan_changes`). -/

namespace RouterShift.Workspace

open TypeScript (SourceFile)

/-! ### What a change is about -/

/-- The text makes a source a candidate. -/
def IsMarked (text : String) : Prop :=
  Text.mentions Vocabulary.routerMarker.toList text.toList = true ∨
    Text.mentions Vocabulary.componentMarker.toList text.toList = true

/-- The change of an external template, for one of the targets. -/
def OfTarget (targets : List Target) (c : FileChange) : Prop :=
  c.before ≠ c.after ∧ ∃ target ∈ targets, target.location = .external c.path ∧ target.text = c.before

/-- What the targets of a source do besides: they change templates of their own that nothing has
    changed before, each once. -/
structure ChangesTemplates (targets : List Target) (seen : List Path) (others : List FileChange) :
    Prop where
  role : ∀ c ∈ others, c.role = .template
  ofTarget : ∀ c ∈ others, OfTarget targets c
  fresh : ∀ c ∈ others, ∀ q ∈ seen, q.sameAs c.path = false
  distinct : Distinct (others.map (·.path))

theorem ChangesTemplates.nil (targets : List Target) (seen : List Path) :
    ChangesTemplates targets seen [] := ⟨by simp, by simp, by simp, .nil⟩

section
variable [TypeScript.Reader]

/-- A component of a source has its template in a file of its own. -/
def NamesTemplate (source : Path) (text : String) (template : Path) : Prop :=
  ∃ file c url, SourceFile.parse source text = .ok file ∧ c ∈ file.components ∧
    c.template = some (.external url template) ∧
    template = TypeScript.templatePath source url

/-- A template that a visited source names. -/
def NamedTemplate (t : Tree) (paths : List Path) (template : Path) : Prop :=
  ∃ source ∈ paths, ∃ text, t.read source = some text ∧ IsMarked text ∧
    NamesTemplate source text template

/-- No template is a source itself. -/
def TemplatesApart (t : Tree) (paths : List Path) : Prop :=
  ∀ template, NamedTemplate t paths template → ∀ source ∈ paths, template.sameAs source = false

/-- A change tells what the file says, and that it will say something else; the file is a marked
    source, or a template that mentions the router. -/
structure Justified (t : Tree) (paths : List Path) (c : FileChange) : Prop where
  differs : c.before ≠ c.after
  read : t.read c.path = some c.before
  reason : (c.path ∈ paths ∧ IsMarked c.before) ∨
    (NamedTemplate t paths c.path ∧ Vocabulary.isMentionedIn c.before = true)

/-- The template of a component is where its source and its URL say. -/
theorem path_eq_of_external {file : SourceFile} {c : TypeScript.Component} {url : String}
    {template : Path} (hc : c ∈ file.components)
    (htemplate : c.template = some (.external url template)) :
    template = TypeScript.templatePath file.path url := by
  obtain ⟨k, -, hmetadata⟩ := List.mem_filterMap.1 hc
  obtain ⟨m, -, rfl⟩ := Option.map_eq_some_iff.1 hmetadata
  obtain ⟨⟨key, pair⟩, -, hsource⟩ := Option.bind_eq_some_iff.1 htemplate
  obtain ⟨literal, -, hkey⟩ := Option.bind_eq_some_iff.1 hsource
  cases key with
  | template => cases hkey
  | templateUrl =>
    cases hkey
    rfl

/-! ### One source -/

section
variable {path : Path} {target : Target} {targets : List Target} {file file' : SourceFile}
  {changes changes' : List FileChange} {seen seen' : List Path}

/-- One target changes one template at most. -/
theorem migrateTarget_changes
    (h : migrateTarget path (file, changes, seen) target = .ok (file', changes', seen')) :
    (changes' = changes ∧ seen' = seen) ∨
      ∃ c, changes' = changes ++ [c] ∧ seen' = c.path :: seen ∧ c.role = .template ∧
        c.before ≠ c.after ∧ target.location = .external c.path ∧ target.text = c.before ∧
        ∀ q ∈ seen, q.sameAs c.path = false := by
  obtain ⟨m, -, ⟨-, -, rfl, rfl⟩ | ⟨template, hlocation, -, hone⟩⟩ := migrateTarget_eq_ok h
  · exact .inl ⟨rfl, rfl⟩
  · rcases hone with ⟨-, rfl, rfl⟩ | ⟨hdiffers, hfresh, rfl, rfl⟩
    · exact .inl ⟨rfl, rfl⟩
    · exact .inr ⟨_, rfl, rfl, rfl, hdiffers.symm, hlocation, rfl,
        fun q hq => Bool.eq_false_iff.2 (List.any_eq_false.1 hfresh q hq)⟩

/-- All targets of a source. -/
theorem migrateTargets_changes
    (h : targets.foldlM (migrateTarget path) (file, changes, seen) = .ok (file', changes', seen')) :
    ∃ others, changes' = changes ++ others ∧ seen' = (others.map (·.path)).reverse ++ seen ∧
      ChangesTemplates targets seen others := by
  induction targets generalizing file changes seen with
  | nil =>
    simp only [List.foldlM_nil, pure_eq_ok, Prod.mk.injEq] at h
    obtain ⟨-, rfl, rfl⟩ := h
    exact ⟨[], (List.append_nil _).symm, rfl, .nil _ _⟩
  | cons target targets ih =>
    obtain ⟨⟨next, changes₁, seen₁⟩, hstep, hrest⟩ := foldlM_cons_eq_ok.1 h
    obtain ⟨others, rfl, rfl, hothers⟩ := ih hrest
    have hlater (c : FileChange) (hc : c ∈ others) : OfTarget (target :: targets) c := by
      obtain ⟨hdiffers, x, hx, hlocation, htext⟩ := hothers.ofTarget c hc
      exact ⟨hdiffers, x, List.mem_cons_of_mem _ hx, hlocation, htext⟩
    rcases migrateTarget_changes hstep with
      ⟨rfl, rfl⟩ | ⟨c, rfl, rfl, hrole, hdiffers, hlocation, htext, hfresh⟩
    · exact ⟨others, rfl, rfl, hothers.role, hlater, hothers.fresh, hothers.distinct⟩
    · refine ⟨c :: others, by simp, by simp, List.forall_mem_cons.2 ⟨hrole, hothers.role⟩, ?_, ?_, ?_⟩
      · intro d hd
        rcases List.mem_cons.1 hd with rfl | hd
        · exact ⟨hdiffers, target, List.mem_cons_self, hlocation, htext⟩
        · exact hlater d hd
      · intro d hd q hq
        rcases List.mem_cons.1 hd with rfl | hd
        · exact hfresh q hq
        · exact hothers.fresh d hd q (List.mem_cons_of_mem _ hq)
      · refine List.pairwise_cons.2 ⟨fun q hq => ?_, hothers.distinct⟩
        obtain ⟨d, hd, rfl⟩ := List.mem_map.1 hq
        exact hothers.fresh d hd c.path List.mem_cons_self

end

section
variable {t : Tree} {path : Path} {text : String} {draft draft' : Draft}

theorem of_mem_ownChange {done : SourceFile} {c : FileChange} (hc : c ∈ ownChange path text done) :
    c.role = .source ∧ c.path = path ∧ c.before = text ∧ c.before ≠ c.after := by
  rw [ownChange] at hc
  split at hc
  · cases hc
  · next hne =>
    rw [List.mem_singleton.1 hc]
    exact ⟨rfl, rfl, rfl, fun heq => hne heq.symm⟩

/-- A source has one change of its own at most. -/
theorem pairwise_ownChange {R : FileChange → FileChange → Prop} (path : Path) (text : String)
    (done : SourceFile) : (ownChange path text done).Pairwise R := by
  rw [ownChange]
  split
  · exact .nil
  · exact List.pairwise_singleton R _

/-- A source adds its own change, if it becomes another file, and changes of its templates. -/
theorem migrateSource_changes (h : migrateSource t path text draft = .ok draft') :
    draft' = draft ∨
      IsMarked text ∧ ∃ file done others, SourceFile.parse path text = .ok file ∧
        draft'.report.changes = draft.report.changes ++ (ownChange path text done ++ others) ∧
        draft'.migratedTemplates = (others.map (·.path)).reverse ++ draft.migratedTemplates ∧
        ChangesTemplates (targetsOf t file) draft.migratedTemplates others := by
  simp only [migrateSource] at h
  split at h
  · cases h
    exact .inl rfl
  · next hgate =>
    have hmarked : IsMarked text := by
      simp only [Bool.and_eq_true, Bool.not_eq_true', not_and, Bool.not_eq_false] at hgate
      rcases Bool.eq_false_or_eq_true (Text.mentions Vocabulary.routerMarker.toList text.toList)
        with hrouter | hrouter
      · exact .inl hrouter
      · exact .inr (hgate hrouter)
    simp only [bind_eq_ok, mapError_eq_ok] at h
    obtain ⟨file, hfile, ⟨spliced, changed, seen⟩, hfold, h⟩ := h
    obtain ⟨-, rfl⟩ := SourceFile.of_parse hfile
    obtain ⟨others, hchanged, hseen, hothers⟩ := migrateTargets_changes hfold
    rw [List.nil_append] at hchanged
    subst hchanged
    refine .inr ⟨hmarked, file, ?_⟩
    split at h
    · simp only [bind_eq_ok, pure_eq_ok] at h
      obtain ⟨done, -, rfl⟩ := h
      exact ⟨done, changed, hfile, List.append_assoc _ _ _, hseen, hothers⟩
    · simp only [bind_eq_ok, pure_eq_ok] at h
      obtain ⟨done, -, rfl⟩ := h
      exact ⟨done, changed, hfile, List.append_assoc _ _ _, hseen, hothers⟩

/-- Where an external target comes from, and what it says. -/
theorem of_external_target {file : SourceFile} {target : Target} {template : Path}
    (hfile : SourceFile.parse path text = .ok file) (htarget : target ∈ targetsOf t file)
    (hlocation : target.location = .external template) :
    NamesTemplate path text template ∧ t.read template = some target.text ∧
      Vocabulary.isMentionedIn target.text = true := by
  rw [targetsOf] at htarget
  split at htarget
  · obtain ⟨c, hc, htarget⟩ := List.mem_filterMap.1 htarget
    cases hsource : c.template with
    | none => simp [target?, hsource] at htarget
    | some source =>
      cases source with
      | inline l =>
        rw [target?_inline t (TypeScript.Component.inline?_eq_some.2 hsource)] at htarget
        split at htarget
        · cases htarget
          cases hlocation
        · cases htarget
      | external url p =>
        simp only [target?, hsource, Option.bind_eq_bind, Option.bind_some,
          Option.bind_eq_some_iff] at htarget
        obtain ⟨said, hsaid, htarget⟩ := htarget
        split at htarget
        · next hmentioned =>
          cases htarget
          cases hlocation
          refine ⟨⟨file, c, url, hfile, hc, hsource, ?_⟩, hsaid, hmentioned⟩
          rw [← (SourceFile.of_parse hfile).1]
          exact path_eq_of_external hc hsource
        · cases htarget
  · cases htarget

end

/-! ### All sources -/

/-- What holds of a draft when some of the sources have been gone through. -/
structure Sound (t : Tree) (paths visited : List Path) (d : Draft) : Prop where
  justified : ∀ c ∈ d.report.changes, Justified t paths c
  /-- A source that is changed was visited, a template that is changed is known. -/
  placed : ∀ c ∈ d.report.changes, c.path ∈ visited ∨
    (c.path ∈ d.migratedTemplates ∧ NamedTemplate t paths c.path)
  distinct : TemplatesApart t paths → Distinct (d.report.changes.map (·.path))

section
variable {t : Tree} {paths visited : List Path} {path : Path} {d d' : Draft}

theorem Sound.start (t : Tree) (paths : List Path) (report : Report) (h : report.changes = []) :
    Sound t paths [] { report := report } :=
  ⟨by simp [h], by simp [h], fun _ => by simp [h, Distinct]⟩

/-- A source that is visited adds what it should. -/
theorem Sound.visit (h : Sound t paths visited d) (hvisited : ∀ q ∈ visited, q ∈ paths)
    (hpath : path ∈ paths)
    (hnew : ∀ q ∈ visited, q.sameAs path = false) (hvisit : visit t d path = .ok d') :
    Sound t paths (visited ++ [path]) d' := by
  have hsame : Sound t paths (visited ++ [path]) d :=
    ⟨h.justified, fun c hc => (h.placed c hc).imp_left (List.mem_append_left [path]), h.distinct⟩
  rcases visit_eq_ok hvisit with ⟨-, rfl⟩ | ⟨text, hread, hvisit⟩
  · exact hsame
  · rcases migrateSource_changes hvisit with rfl |
      ⟨hmarked, file, done, others, hfile, hchanges, htemplates, hothers⟩
    · exact hsame
    · have hown (c : FileChange) (hc : c ∈ ownChange path text done) :
          c.path = path ∧ c.before = text ∧ c.before ≠ c.after := (of_mem_ownChange hc).2
      have hnamed (c : FileChange) (hc : c ∈ others) : NamedTemplate t paths c.path ∧
          t.read c.path = some c.before ∧ Vocabulary.isMentionedIn c.before = true := by
        obtain ⟨-, target, htarget, hlocation, htext⟩ := hothers.ofTarget c hc
        obtain ⟨hnames, hsays, hmentioned⟩ := of_external_target hfile htarget hlocation
        rw [htext] at hsays hmentioned
        exact ⟨⟨path, hpath, text, hread, hmarked, hnames⟩, hsays, hmentioned⟩
      refine ⟨?_, ?_, fun hapart => ?_⟩
      · intro c hc
        simp only [hchanges, List.mem_append] at hc
        rcases hc with hc | hc | hc
        · exact h.justified c hc
        · obtain ⟨rfl, rfl, hdiffers⟩ := hown c hc
          exact ⟨hdiffers, hread, .inl ⟨hpath, hmarked⟩⟩
        · obtain ⟨hname, hsays, hmentioned⟩ := hnamed c hc
          exact ⟨(hothers.ofTarget c hc).1, hsays, .inr ⟨hname, hmentioned⟩⟩
      · intro c hc
        simp only [hchanges, List.mem_append] at hc
        rw [htemplates]
        rcases hc with hc | hc | hc
        · refine (h.placed c hc).imp (List.mem_append_left [path]) fun hknown => ?_
          exact ⟨List.mem_append_right _ hknown.1, hknown.2⟩
        · exact .inl ((hown c hc).1 ▸ List.mem_append_right visited List.mem_cons_self)
        · refine .inr ⟨List.mem_append_left _ ?_, (hnamed c hc).1⟩
          exact List.mem_reverse.2 (List.mem_map_of_mem hc)
      · -- old changes are of other files than new ones: of sources that were visited before, or of
        -- templates, which are no sources and are not changed again
        have hold (c : FileChange) (hc : c ∈ d.report.changes) : c.path.sameAs path = false ∧
            ∀ e ∈ others, c.path.sameAs e.path = false := by
          rcases h.placed c hc with hsource | ⟨hseen, hname⟩
          · refine ⟨hnew _ hsource, fun e he => ?_⟩
            rw [Path.sameAs_comm]
            exact hapart _ (hnamed e he).1 _ (hvisited _ hsource)
          · exact ⟨hapart _ hname _ hpath, fun e he => hothers.fresh e he _ hseen⟩
        rw [Distinct, List.pairwise_map, hchanges, List.pairwise_append, List.pairwise_append]
        refine ⟨List.pairwise_map.1 (h.distinct hapart),
          ⟨pairwise_ownChange path text done, List.pairwise_map.1 hothers.distinct, ?_⟩, ?_⟩
        · intro c hc e he
          rw [(hown c hc).1, Path.sameAs_comm]
          exact hapart _ (hnamed e he).1 _ hpath
        · intro c hc e he
          rcases List.mem_append.1 he with he | he
          · rw [(hown e he).1]
            exact (hold c hc).1
          · exact (hold c hc).2 e he

/-- What a plan changes, in whatever tree, when it lists every source once. -/
theorem plan_changes {roots : List Path} {report : Report} (hplan : plan t roots = .ok report)
    (hpaths : sources t roots = .ok paths) (hdistinct : Distinct paths) :
    (∀ c ∈ report.changes, Justified t paths c) ∧
      (TemplatesApart t paths → Distinct (report.changes.map (·.path))) := by
  simp only [plan_eq, hpaths, bind_eq_ok, pure_eq_ok, Except.ok.injEq] at hplan
  obtain ⟨_, rfl, draft, hvisits, rfl⟩ := hplan
  have hsound : Sound t paths paths draft := by
    refine visits_induction (Sound.start t paths _ rfl) (fun visited path d d' hfront hvisit h => ?_)
      hvisits
    have hnew := List.pairwise_append.1 (List.Pairwise.sublist hfront.sublist hdistinct)
    exact h.visit (fun q hq => hfront.subset (List.mem_append_left _ hq)) (hfront.subset (by simp))
      (fun q hq => hnew.2.2 q hq path List.mem_cons_self) hvisit
  exact ⟨hsound.justified, hsound.distinct⟩

end
end
end RouterShift.Workspace
