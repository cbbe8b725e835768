import RouterShift.Proofs.TypeScript.Literal
import RouterShift.Proofs.TypeScript.Splice
import RouterShift.Workspace.Plan

/-! The templates of one source in a migration. The templates are found one by one, but an inline one
    is put back by the name of its component. So the migration of a source is a list of templates
    put into a file (`migrateFile`), and under names that lead to the templates each literal has the
    migration of what it said itself put into it last (`migrateFile_matches`). -/

namespace RouterShift.Workspace

open TypeScript (SourceFile Literal FoundAgain FoundThroughout)

/-- What is put into a source for some targets: a migrated template for each inline one. -/
def inlineSplices (targets : List Target) : List (String × String) :=
  targets.filterMap fun target =>
    match target.location with
    | .inline => (Markup.migrate target.text).toOption.map fun m => (target.className, m)
    | .external _ => none

theorem target?_inline (t : Tree) {c : TypeScript.Component} {l : Literal}
    (hl : c.inline? = some l) : target? t c =
      if Vocabulary.isMentionedIn l.value then some ⟨c.className, .inline, l.value⟩ else none := by
  rw [TypeScript.Component.inline?_eq_some] at hl
  simp [target?, hl, TypeScript.TemplateSource.location]

theorem target?_eq_some_inline {t : Tree} {c : TypeScript.Component} {target : Target}
    (h : target? t c = some target) (hlocation : target.location = .inline) :
    ∃ l, c.inline? = some l ∧ Vocabulary.isMentionedIn l.value = true ∧
      target = ⟨c.className, .inline, l.value⟩ := by
  cases htemplate : c.template with
  | none => simp [target?, htemplate] at h
  | some template =>
    cases template with
    | inline l =>
      have hl : c.inline? = some l := TypeScript.Component.inline?_eq_some.2 htemplate
      rw [target?_inline t hl] at h
      split at h
      · next hmentioned => exact ⟨l, hl, hmentioned, (Option.some.inj h).symm⟩
      · cases h
    | external url path =>
      simp only [target?, htemplate, Option.bind_eq_bind, Option.bind_some,
        Option.bind_eq_some_iff] at h
      obtain ⟨text, -, h⟩ := h
      split at h
      · rw [← Option.some.inj h] at hlocation
        cases hlocation
      · cases h

theorem mem_inlineSplices {targets : List Target} {className markup : String} :
    (className, markup) ∈ inlineSplices targets ↔ ∃ target ∈ targets, target.location = .inline ∧
      target.className = className ∧ Markup.migrate target.text = .ok markup := by
  rw [inlineSplices, List.mem_filterMap]
  refine exists_congr fun target => and_congr_right fun _ => ?_
  cases target.location with
  | external path => simp
  | inline => cases Markup.migrate target.text <;> simp [Except.toOption, eq_comm]

section
variable [TypeScript.Reader]

/-- The templates of a source that are migrated; a source without the marker has none. -/
def targetsOf (t : Tree) (file : SourceFile) : List Target :=
  if Text.mentions Vocabulary.componentMarker.toList file.text.toList then
    file.components.filterMap (target? t)
  else []

/-! ### The targets of a source -/

section
variable {path : Path} {target : Target} {file file' : SourceFile}
  {changes changes' : List FileChange} {seen seen' : List Path}

/-- What one target does. An inline one is put into the file; an external one leaves the file alone
    and is a change of its own, unless it is the same as before or was taken already. -/
theorem migrateTarget_eq_ok
    (h : migrateTarget path (file, changes, seen) target = .ok (file', changes', seen')) :
    ∃ m, Markup.migrate target.text = .ok m ∧
      ((target.location = .inline ∧ file.spliceTemplate target.className m = .ok file' ∧
          changes' = changes ∧ seen' = seen) ∨
        ∃ template, target.location = .external template ∧ file' = file ∧
          (((m = target.text ∨ seen.any (·.sameAs template) = true) ∧
              changes' = changes ∧ seen' = seen) ∨
            (m ≠ target.text ∧ seen.any (·.sameAs template) = false ∧
              changes' = changes ++ [⟨template, .template, target.text, m⟩] ∧
              seen' = template :: seen))) := by
  simp only [migrateTarget, bind_eq_ok, mapError_eq_ok] at h
  obtain ⟨m, hm, h⟩ := h
  refine ⟨m, hm, ?_⟩
  cases hlocation : target.location with
  | inline =>
    simp only [hlocation, bind_eq_ok, spliceTarget, mapError_eq_ok, pure_eq_ok,
      Prod.mk.injEq] at h
    obtain ⟨spliced, hs, rfl, rfl, rfl⟩ := h
    exact .inl ⟨rfl, hs, rfl, rfl⟩
  | external template =>
    simp only [hlocation] at h
    refine .inr ⟨template, rfl, ?_⟩
    split at h
    · next hold =>
      simp only [pure_eq_ok, Prod.mk.injEq] at h
      obtain ⟨rfl, rfl, rfl⟩ := h
      rw [Bool.or_eq_true, decide_eq_true_eq] at hold
      exact ⟨rfl, .inl ⟨hold, rfl, rfl⟩⟩
    · next hnew =>
      simp only [pure_eq_ok, Prod.mk.injEq] at h
      obtain ⟨rfl, rfl, rfl⟩ := h
      simp only [Bool.or_eq_true, decide_eq_true_eq, not_or, Bool.not_eq_true] at hnew
      exact ⟨rfl, .inr ⟨hnew.1, hnew.2, rfl, rfl⟩⟩

/-- What the targets of a source do together. -/
theorem migrateTargets_eq_ok {targets : List Target}
    (h : targets.foldlM (migrateTarget path) (file, changes, seen) = .ok (file', changes', seen')) :
    file.spliceAll (inlineSplices targets) = .ok file' ∧
      (∀ target ∈ targets, ∃ m, Markup.migrate target.text = .ok m) ∧
      ∀ c ∈ changes', c ∈ changes ∨ c.role = .template := by
  induction targets generalizing file changes seen with
  | nil =>
    simp only [List.foldlM_nil, pure_eq_ok, Prod.mk.injEq] at h
    obtain ⟨rfl, rfl, rfl⟩ := h
    exact ⟨rfl, by simp, fun c hc => .inl hc⟩
  | cons target targets ih =>
    obtain ⟨⟨next, changes₁, seen₁⟩, hstep, hrest⟩ := foldlM_cons_eq_ok.1 h
    obtain ⟨hsplices, hmigrates, hrole⟩ := ih hrest
    obtain ⟨m, hm, hone⟩ := migrateTarget_eq_ok hstep
    have hall : ∀ x ∈ target :: targets, ∃ m, Markup.migrate x.text = .ok m := by
      intro x hx
      rcases List.mem_cons.1 hx with rfl | hx
      · exact ⟨m, hm⟩
      · exact hmigrates x hx
    rcases hone with ⟨hlocation, hs, rfl, -⟩ | ⟨template, hlocation, rfl, hone⟩
    · refine ⟨?_, hall, hrole⟩
      simp only [inlineSplices, List.filterMap_cons, hlocation, hm, Except.toOption,
        Option.map_some, SourceFile.spliceAll, hs]
      exact hsplices
    · refine ⟨?_, hall, fun c hc => ?_⟩
      · simp only [inlineSplices, List.filterMap_cons, hlocation]
        exact hsplices
      · rcases hrole c hc with hc | hc
        · rcases hone with ⟨-, rfl, -⟩ | ⟨-, -, rfl, -⟩
          · exact .inl hc
          · refine (List.mem_append.1 hc).imp_right fun hc => ?_
            rw [List.mem_singleton.1 hc]
        · exact .inr hc

end

/-! ### One source -/

/-- What the migration makes of a source. -/
def migrateFile (t : Tree) (file : SourceFile) : Except TypeScript.SourceError SourceFile := do
  let spliced ← file.spliceAll (inlineSplices (targetsOf t file))
  if Text.mentions Vocabulary.routerMarker.toList file.text.toList then spliced.migrateParamsHook
  else .ok spliced

/-- The change of a source that has become another file. -/
def ownChange (path : Path) (text : String) (done : SourceFile) : List FileChange :=
  if done.text = text then [] else [⟨path, .source, text, done.text⟩]

/-- What one source does: nothing when it is no candidate, and else a change of its own before those
    of external templates. -/
theorem migrateSource_eq_ok {t : Tree} {path : Path} {text : String} {draft draft' : Draft}
    (h : migrateSource t path text draft = .ok draft') :
    (Text.mentions Vocabulary.componentMarker.toList text.toList = false ∧ draft' = draft) ∨
      ∃ file done others, SourceFile.parse path text = .ok file ∧
        (∀ target ∈ targetsOf t file, ∃ m, Markup.migrate target.text = .ok m) ∧
        migrateFile t file = .ok done ∧
        draft'.report.changes = draft.report.changes ++ (ownChange path text done ++ others) ∧
        ∀ c ∈ others, c.role = .template := by
  simp only [migrateSource] at h
  split at h
  · next hgate =>
    cases h
    simp only [Bool.and_eq_true, Bool.not_eq_true'] at hgate
    exact .inl ⟨hgate.2, rfl⟩
  · simp only [bind_eq_ok, mapError_eq_ok] at h
    obtain ⟨file, hfile, ⟨spliced, others, seen⟩, hfold, h⟩ := h
    obtain ⟨-, rfl⟩ := SourceFile.of_parse hfile
    obtain ⟨hsplices, hmigrates, hrole⟩ := migrateTargets_eq_ok hfold
    have hothers : ∀ c ∈ others, c.role = .template := by
      intro c hc
      rcases hrole c hc with hc | hc
      · cases hc
      · exact hc
    split at h
    · next hrouter =>
      simp only [bind_eq_ok, hookFile, mapError_eq_ok, pure_eq_ok] at h
      obtain ⟨done, hhook, rfl⟩ := h
      refine .inr ⟨file, done, others, hfile, hmigrates, ?_, List.append_assoc _ _ _, hothers⟩
      exact bind_eq_ok.2 ⟨spliced, hsplices, by rwa [if_pos hrouter]⟩
    · next hrouter =>
      simp only [bind_eq_ok, pure_eq_ok, Except.ok.injEq] at h
      obtain ⟨_, rfl, rfl⟩ := h
      refine .inr ⟨file, spliced, others, hfile, hmigrates, ?_, List.append_assoc _ _ _, hothers⟩
      exact bind_eq_ok.2 ⟨spliced, hsplices, if_neg hrouter⟩

/-! ### The templates of one source -/

/-- What the migration makes of an inline template. One that mentions the vocabulary says its own
    migration, as far as a literal can; any other one is left alone. -/
structure Migrated (l l' : Literal) : Prop where
  delimiter : l'.delimiter = l.delimiter
  mentioned : Vocabulary.isMentionedIn l.value = true → ∃ m, Markup.migrate l.value = .ok m ∧
    l'.raw = l.write m ∧
      (l'.value = m ↔ Literal.hidesDelimiter l.delimiter m.toList = false)
  unmentioned : Vocabulary.isMentionedIn l.value = false → l'.raw = l.raw ∧ l'.value = l.value

/-- The name of each component with an inline template to migrate leads to that template: no other
    component of the name comes before it. -/
def NamesLead (file : SourceFile) : Prop :=
  ∀ c ∈ file.components, ∀ l, c.inline? = some l → Vocabulary.isMentionedIn l.value = true →
    file.inlineTemplate? c.className = some l

/-- The grammar finds the components again after each change that the migration makes to a source:
    after each template that is put into it, and after the insertions for the hook. -/
structure ReadsAlike (t : Tree) (file : SourceFile) : Prop where
  splices : FoundThroughout file (inlineSplices (targetsOf t file))
  hook : Text.mentions Vocabulary.routerMarker.toList file.text.toList = true →
    ∀ spliced edits done, file.spliceAll (inlineSplices (targetsOf t file)) = .ok spliced →
      spliced.hookEdits = .ok edits → spliced.edited edits = .ok done →
        FoundAgain (·.movedAll? (Edit.made edits)) spliced done

section
variable {t : Tree} {file : SourceFile}

/-- What is put into a literal is its own migration, when the names lead. -/
theorem of_mem_inlineSplices (hnames : NamesLead file) {className markup : String} {l : Literal}
    (hmem : (className, markup) ∈ inlineSplices (targetsOf t file))
    (hl : file.inlineTemplate? className = some l) :
    Vocabulary.isMentionedIn l.value = true ∧ Markup.migrate l.value = .ok markup := by
  obtain ⟨target, htarget, hlocation, rfl, hmigrate⟩ := mem_inlineSplices.1 hmem
  rw [targetsOf] at htarget
  split at htarget
  · obtain ⟨c, hc, hct⟩ := List.mem_filterMap.1 htarget
    obtain ⟨k, hk, hmentioned, rfl⟩ := target?_eq_some_inline hct hlocation
    obtain rfl : k = l := Option.some.inj ((hnames c hc k hk hmentioned).symm.trans hl)
    exact ⟨hmentioned, hmigrate⟩
  · cases htarget

theorem lastSplice?_of_unmentioned (hnames : NamesLead file) {l : Literal}
    (h : Vocabulary.isMentionedIn l.value = false) :
    file.lastSplice? (inlineSplices (targetsOf t file)) l = none := by
  rw [SourceFile.lastSplice?, Option.map_eq_none_iff, List.getLast?_eq_none_iff,
    List.filter_eq_nil_iff]
  rintro ⟨className, markup⟩ hmem hl
  obtain ⟨hmentioned, -⟩ := of_mem_inlineSplices hnames hmem (of_decide_eq_true hl)
  rw [h] at hmentioned
  cases hmentioned

theorem lastSplice?_of_mentioned (hnames : NamesLead file)
    (hmarked : Text.mentions Vocabulary.componentMarker.toList file.text.toList = true)
    (hmigrates : ∀ target ∈ targetsOf t file, ∃ m, Markup.migrate target.text = .ok m)
    {c : TypeScript.Component} (hc : c ∈ file.components) {l : Literal} (hl : c.inline? = some l)
    (h : Vocabulary.isMentionedIn l.value = true) :
    ∃ m, Markup.migrate l.value = .ok m ∧
      file.lastSplice? (inlineSplices (targetsOf t file)) l = some m := by
  have htarget : (⟨c.className, .inline, l.value⟩ : Target) ∈ targetsOf t file := by
    rw [targetsOf, if_pos hmarked]
    exact List.mem_filterMap.2 ⟨c, hc, by rw [target?_inline t hl, if_pos h]⟩
  obtain ⟨m, hm⟩ := hmigrates _ htarget
  have hsplice : (c.className, m) ∈ inlineSplices (targetsOf t file) :=
    mem_inlineSplices.2 ⟨_, htarget, rfl, rfl, hm⟩
  have hhit : (c.className, m) ∈ (inlineSplices (targetsOf t file)).filter fun s =>
      file.inlineTemplate? s.1 = some l :=
    List.mem_filter.2 ⟨hsplice, decide_eq_true (hnames c hc l hl h)⟩
  obtain ⟨⟨className, markup⟩, hlast⟩ :=
    Option.isSome_iff_exists.1 (List.getLast?_isSome.2 (List.ne_nil_of_mem hhit))
  -- whatever is put last into the literal is a migration of what it said at first
  obtain ⟨hmem, hlead⟩ := List.mem_filter.1 (List.mem_of_getLast? hlast)
  obtain ⟨-, hmigrate⟩ := of_mem_inlineSplices hnames hmem (of_decide_eq_true hlead)
  refine ⟨markup, hmigrate, ?_⟩
  rw [SourceFile.lastSplice?, hlast, Option.map_some]

/-- What the migration makes of the components of a source. -/
theorem migrateFile_matches {done : SourceFile} (h : migrateFile t file = .ok done)
    (hmarked : Text.mentions Vocabulary.componentMarker.toList file.text.toList = true)
    (hmigrates : ∀ target ∈ targetsOf t file, ∃ m, Markup.migrate target.text = .ok m)
    (hsound : TypeScript.Reader.Sound) (hnames : NamesLead file) (halike : ReadsAlike t file) :
    done.path = file.path ∧
      List.Forall₂ (TypeScript.Component.Matches Migrated) file.components done.components := by
  rw [migrateFile, bind_eq_ok] at h
  obtain ⟨spliced, hsplices, h⟩ := h
  have hpath := SourceFile.path_spliceAll hsplices
  obtain ⟨hdone, hrest⟩ : done.path = spliced.path ∧
      List.Forall₂ (TypeScript.Component.Matches fun l l' =>
        l'.delimiter = l.delimiter ∧ l'.raw = l.raw) spliced.components done.components := by
    split at h
    · next hrouter =>
      rw [SourceFile.migrateParamsHook] at h
      cases hedits : spliced.hookEdits with
      | error e => rw [hedits] at h; cases h
      | ok edits =>
        rw [hedits] at h
        exact ⟨(SourceFile.of_edited h).1,
          TypeScript.edited_matches hsound h
            (halike.hook hrouter spliced edits done hsplices hedits h)⟩
    · cases h
      exact ⟨rfl, List.forall₂_same.2 fun c _ => ⟨rfl, id, fun l hl => ⟨l, hl, rfl, rfl⟩⟩⟩
  refine ⟨hdone.trans hpath, ?_⟩
  refine TypeScript.matches_trans (TypeScript.spliceAll_matches hsound halike.splices hsplices)
    hrest ?_
  rintro c hc l hl l' l'' ⟨hdelimiter, hraw⟩ ⟨hdelimiter', hraw'⟩
  rw [hdelimiter] at hdelimiter'
  rw [hraw] at hraw'
  refine ⟨hdelimiter', fun hmentioned => ?_, fun hunmentioned => ?_⟩
  · obtain ⟨m, hm, hlast⟩ := lastSplice?_of_mentioned hnames hmarked hmigrates hc hl hmentioned
    rw [hlast, Option.map_some, Option.getD_some] at hraw'
    refine ⟨m, hm, hraw', ?_⟩
    rw [← hdelimiter']
    exact Literal.value_eq_iff (by rw [hraw', Literal.write_congr hdelimiter'])
  · rw [lastSplice?_of_unmentioned hnames hunmentioned, Option.map_none, Option.getD_none]
      at hraw'
    exact ⟨hraw', by rw [Literal.value, Literal.value, hraw', hdelimiter']⟩

end

end
end RouterShift.Workspace
