import RouterShift.Proofs.Package.Maintenance
import RouterShift.Proofs.Package.Manifest
import RouterShift.Proofs.Package.Renamed
import RouterShift.Proofs.Workspace.Files
import RouterShift.Workspace.Rename

/-! Moving a package into the maintenance scope twice. The second run finds the manifest done; it
    changes a source just when moving the package a second time changes the text that the source had
    at first (`rename_again`). Whether there is such a text at all is decided by the name of the
    package: `ngx` stands in the scope itself, and every run puts it into its own scope once more. -/

namespace RouterShift

/-! ### Files by their paths -/

theorem Path.extension?_congr {p q : Path} (h : p.sameAs q) : p.extension? = q.extension? := by
  rw [extension?, extension?, fileName?, fileName?, sameAs_iff.1 h]

namespace Workspace

section
variable {m : FileMap} {p : Path} {paths : List Path} {text : String}

/-- A path that is there already keeps the spelling it had. -/
theorem insertPath_of_mem (h : Ordered paths) (hp : p ∈ paths) : insertPath p paths = paths := by
  induction paths with
  | nil => cases hp
  | cons q rest ih =>
    obtain ⟨hq, hrest⟩ := List.pairwise_cons.1 h
    rw [insertPath]
    rcases List.mem_cons.1 hp with rfl | hp
    · rw [Path.order_eq_iff.2 (Path.sameAs_refl p)]
    · rw [Std.OrientedCmp.gt_of_lt (hq p hp), ih hrest hp]

theorem FileMap.get?_isSome (hp : p ∈ m.map (·.1)) : (m.get? p).isSome := by
  obtain ⟨file, hfile, rfl⟩ := List.mem_map.1 hp
  rw [get?, Option.isSome_map, List.find?_isSome]
  exact ⟨file, hfile, Path.sameAs_refl _⟩

end

/-! ### One source after the other -/

section
variable {m m' m'' : FileMap} {p : Path} {paths : List Path} {package : String}

/-- Moving the package changes the file. -/
def FileMap.isMoved (package : String) (m : FileMap) (p : Path) : Bool :=
  (m.get? p).map (PackageName.moved package) != m.get? p

/-- What is left of some files when a package was moved in some of them. -/
structure Moved (package : String) (paths : List Path) (m m' : FileMap) : Prop where
  keys : m'.map (·.1) = m.map (·.1)
  moved : ∀ p ∈ paths, m'.get? p = (m.get? p).map (PackageName.moved package)
  others : ∀ p, (∀ q ∈ paths, q.sameAs p = false) → m'.get? p = m.get? p
  same : paths.filter (m.isMoved package) = [] → m' = m

theorem Moved.isMoved_eq (h : Moved package [p] m m') {q : Path} (hq : p.sameAs q = false) :
    m'.isMoved package q = m.isMoved package q := by
  rw [FileMap.isMoved, FileMap.isMoved, h.others q (List.forall_mem_singleton.2 hq)]

theorem Moved.filter_eq (hp : ∀ q ∈ paths, p.sameAs q = false) (h : Moved package [p] m m') :
    paths.filter (m'.isMoved package) = paths.filter (m.isMoved package) :=
  List.filter_congr fun q hq => h.isMoved_eq (hp q hq)

theorem Moved.cons (hp : ∀ q ∈ paths, p.sameAs q = false) (h : Moved package [p] m m')
    (hrest : Moved package paths m' m'') : Moved package (p :: paths) m m'' := by
  refine ⟨hrest.keys.trans h.keys, fun q hq => ?_, fun q hq => ?_, fun hnone => ?_⟩
  · rcases List.mem_cons.1 hq with rfl | hq
    · rw [hrest.others q fun r hr => Path.sameAs_comm.trans (hp r hr),
        h.moved q List.mem_cons_self]
    · rw [hrest.moved q hq, h.others q (List.forall_mem_singleton.2 (hp q hq))]
  · obtain ⟨hq, hqs⟩ := List.forall_mem_cons.1 hq
    rw [hrest.others q hqs, h.others q (List.forall_mem_singleton.2 hq)]
  · rw [List.filter_cons] at hnone
    split at hnone
    · cases hnone
    · next hstays =>
      have hp' : m' = m := h.same (by rw [List.filter_cons, if_neg hstays]; rfl)
      exact (hrest.same ((h.filter_eq hp).trans hnone)).trans hp'

section
variable {behind : Entry} {directory : Path}

theorem renameSource_memory (hkeys : Ordered (m.map (·.1))) (hp : p ∈ m.map (·.1))
    (done : List Path) : ∃ m', Moved package [p] m m' ∧
      renameSource package (PackageName.maintenance package) (.memory m behind directory, done) p =
        .ok (.memory m' behind directory, done ++ [p].filter (m.isMoved package)) := by
  obtain ⟨text, htext⟩ := Option.isSome_iff_exists.1 (FileMap.get?_isSome hp)
  have hread : (Tree.memory m behind directory).read p = some text := by rw [Tree.read, htext]; rfl
  simp only [renameSource, hread]
  by_cases hsame : PackageName.moved package text = text
  · have hstays : m.isMoved package p = false := by
      rw [FileMap.isMoved, htext, Option.map_some, hsame, bne_self_eq_false]
    refine ⟨m, ⟨rfl, ?_, fun _ _ => rfl, fun _ => rfl⟩, ?_⟩
    · rw [List.forall_mem_singleton, htext, Option.map_some, hsame]
    · rw [List.filter_cons, hstays]
      exact (if_pos hsame).trans (by simp)
  · have hmoves : m.isMoved package p = true := by
      rw [FileMap.isMoved, htext, Option.map_some, bne_iff_ne]
      exact fun heq => hsame (Option.some.inj heq)
    refine ⟨m.insert p (PackageName.moved package text), ⟨?_, ?_, fun q hq => ?_, fun hnone => ?_⟩, ?_⟩
    · rw [FileMap.keys_insert, insertPath_of_mem hkeys hp]
    · rw [List.forall_mem_singleton, FileMap.get?_insert_self (Path.sameAs_refl p), htext]
      rfl
    · exact FileMap.get?_insert_of_not (hq p List.mem_cons_self)
    · rw [List.filter_cons, if_pos hmoves] at hnone
      cases hnone
    · rw [List.filter_cons, if_pos hmoves]
      exact if_neg hsame

/-- In memory a package can be moved in all sources; those that this changes are told. -/
theorem renameSources_memory (hkeys : Ordered (m.map (·.1))) (hdistinct : Distinct paths)
    (hmem : ∀ p ∈ paths, p ∈ m.map (·.1)) (done : List Path) : ∃ m', Moved package paths m m' ∧
      paths.foldlM (renameSource package (PackageName.maintenance package))
        (.memory m behind directory, done) =
          .ok (.memory m' behind directory, done ++ paths.filter (m.isMoved package)) := by
  induction paths generalizing m done with
  | nil =>
    refine ⟨m, ⟨rfl, by simp, fun _ _ => rfl, fun _ => rfl⟩, ?_⟩
    rw [List.filter_nil, List.append_nil]
    rfl
  | cons p paths ih =>
    obtain ⟨hp, hdistinct⟩ := List.pairwise_cons.1 hdistinct
    obtain ⟨hmem, hmems⟩ := List.forall_mem_cons.1 hmem
    obtain ⟨m', hmoved, hstep⟩ := @renameSource_memory m p package behind directory hkeys hmem done
    rw [← hmoved.keys] at hkeys hmems
    obtain ⟨m'', hrest, hsteps⟩ := ih hkeys hdistinct hmems (done ++ [p].filter (m.isMoved package))
    refine ⟨m'', .cons hp hmoved hrest, ?_⟩
    rw [List.foldlM_cons, hstep]
    refine hsteps.trans ?_
    rw [hmoved.filter_eq hp, List.append_assoc, ← List.filter_append]
    rfl

end
end

/-! ### Two runs -/

section
variable {files files' : FileMap} {behind : Entry} {directory p : Path} {package version : String}
  {m : Manifest} {t' : Tree} {done : Renaming}

/-- The sources of a workspace in memory, all of them. -/
def sourcesIn (files : FileMap) : List Path :=
  ((files.map (·.1)).filter fun p => !p.components.any Tree.isLeftOut).filter
    fun p => p.extension? = some "ts"

theorem mem_sourcesIn : p ∈ sourcesIn files ↔ IsSource files [] p := by
  simp only [sourcesIn, List.mem_filter, decide_eq_true_eq, Bool.not_eq_true', List.any_eq_false,
    Bool.not_eq_true]
  constructor
  · rintro ⟨⟨hmem, hvisible⟩, hextension⟩
    exact ⟨hmem, hextension, hvisible, ⟨"."⟩, List.mem_cons_self, .inr (.inl (Path.sameAs_refl _))⟩
  · intro h
    exact ⟨⟨h.mem, h.visible⟩, h.extension⟩

theorem distinct_sourcesIn (h : Ordered (files.map (·.1))) : Distinct (sourcesIn files) :=
  (h.distinct.filter _).filter _

/-- The manifest names the package, and not in the maintenance scope. -/
def isUpdated (m : Manifest) (package version : String) : Bool :=
  PackageName.maintenance package != package &&
    (m.renameDependency package (PackageName.maintenance package) version).2

/-- The files with the dependency renamed in the manifest. -/
def withDependency (files : FileMap) (m : Manifest) (package version : String) : FileMap :=
  if isUpdated m package version then
    files.insert manifestPath
      (m.renameDependency package (PackageName.maintenance package) version).1.render
  else files

theorem ordered_withDependency (h : Ordered (files.map (·.1))) :
    Ordered ((withDependency files m package version).map (·.1)) := by
  rw [withDependency]
  split
  · rw [FileMap.keys_insert]
    exact h.insertPath manifestPath
  · exact h

/-- In memory only a manifest that cannot be had keeps a package from being renamed. -/
theorem rename_memory (hfiles : Ordered (files.map (·.1)))
    (hm : (Tree.memory files behind directory).manifest = .ok m) : ∃ files',
      Moved package (sourcesIn (withDependency files m package version))
        (withDependency files m package version) files' ∧
      rename (.memory files behind directory) package version = .ok (.memory files' behind directory,
        ⟨PackageName.maintenance package, isUpdated m package version,
          (sourcesIn (withDependency files m package version)).filter
            ((withDependency files m package version).isMoved package)⟩) := by
  have hordered : Ordered ((withDependency files m package version).map (·.1)) :=
    ordered_withDependency hfiles
  have hmem : ∀ p ∈ sourcesIn (withDependency files m package version),
      p ∈ (withDependency files m package version).map (·.1) := fun p hp =>
    (mem_sourcesIn.1 hp).mem
  obtain ⟨files', hmoved, hsources⟩ := @renameSources_memory _ _ package behind directory hordered
    (distinct_sourcesIn hordered) hmem []
  refine ⟨files', hmoved, ?_⟩
  have hlist := @list_memory behind directory (withDependency files m package version)
  have hupdated : (PackageName.maintenance package != package &&
      (m.renameDependency package (PackageName.maintenance package) version).2) =
        isUpdated m package version := rfl
  rw [List.nil_append] at hsources
  rw [rename, hm]
  simp only [bind, Except.bind, hupdated]
  rw [withDependency] at hlist hsources ⊢
  split at hlist <;> next h =>
    simp only [h, if_true, if_false, Bool.false_eq_true] at hsources ⊢
    simp only [Tree.write, Except.mapError, hlist]
    exact congrArg (Except.map fun state : Tree × List Path => (state.1, Renaming.mk _ _ state.2))
      hsources

/-- Without a manifest nothing is renamed. -/
theorem exists_manifest_of_rename {t : Tree} (h : rename t package version = .ok (t', done)) :
    ∃ m, t.manifest = .ok m := by
  rw [rename, bind_eq_ok] at h
  obtain ⟨m, hm, -⟩ := h
  exact ⟨m, hm⟩

/-- A source is not the manifest. -/
theorem manifest_ne_source (h : p.extension? = some "ts") : manifestPath.sameAs p = false := by
  rw [← Bool.not_eq_true]
  intro hsame
  rw [← Path.extension?_congr hsame] at h
  exact absurd h (by decide +kernel)

theorem isSource_withDependency :
    IsSource (withDependency files m package version) [] p ↔ IsSource files [] p := by
  have hkeys (hextension : p.extension? = some "ts") :
      p ∈ (withDependency files m package version).map (·.1) ↔ p ∈ files.map (·.1) := by
    rw [withDependency]
    split
    · rw [FileMap.keys_insert]
      refine ⟨fun h => (mem_of_mem_insertPath h).resolve_left ?_, mem_insertPath_of_mem⟩
      rintro rfl
      exact absurd (manifest_ne_source hextension) (by simp [Path.sameAs_refl])
    · rfl
  constructor
  · intro h
    exact { h with mem := (hkeys h.extension).1 h.mem }
  · intro h
    exact { h with mem := (hkeys h.extension).2 h.mem }

theorem get?_withDependency (h : p.extension? = some "ts") :
    (withDependency files m package version).get? p = files.get? p := by
  rw [withDependency]
  split
  · exact FileMap.get?_insert_of_not (manifest_ne_source h)
  · rfl

/-- The second run has a manifest, and finds nothing to do in it. -/
theorem manifest_again (hm : (Tree.memory files behind directory).manifest = .ok m)
    (hmoved : Moved package (sourcesIn (withDependency files m package version))
      (withDependency files m package version) files') :
    ∃ m', (Tree.memory files' behind directory).manifest = .ok m' ∧
      isUpdated m' package version = false := by
  have hget : files'.get? manifestPath = (withDependency files m package version).get? manifestPath :=
    hmoved.others manifestPath fun q hq =>
      Path.sameAs_comm.trans (manifest_ne_source (mem_sourcesIn.1 hq).extension)
  rw [Tree.manifest, Tree.read] at hm ⊢
  rw [hget]
  cases hupdated : isUpdated m package version with
  | false =>
    refine ⟨m, ?_, hupdated⟩
    rw [withDependency, hupdated]
    exact hm
  | true =>
    obtain ⟨hne, -⟩ := Bool.and_eq_true_iff.1 hupdated
    split at hm
    · cases hm
    · next text hread =>
      obtain ⟨m', hparse, hagain⟩ := @Manifest.renameDependency_again m package _ version
        manifestPath manifestPath text (mapError_eq_ok.1 hm) (bne_iff_ne.1 hne).symm
      refine ⟨m', ?_, ?_⟩
      · rw [withDependency, hupdated, if_pos rfl,
          FileMap.get?_insert_self (Path.sameAs_refl manifestPath), Option.some_or]
        exact congrArg (Except.mapError Failure.manifest) hparse
      · rw [isUpdated, hagain, Bool.and_false]

/-- Two runs, one after the other: the second one has nothing to do in the manifest. -/
theorem rename_twice (hfiles : Ordered (files.map (·.1)))
    (hm : (Tree.memory files behind directory).manifest = .ok m) : ∃ files' files'',
      Moved package (sourcesIn (withDependency files m package version))
        (withDependency files m package version) files' ∧
      Moved package (sourcesIn (withDependency files m package version)) files' files'' ∧
      rename (.memory files behind directory) package version = .ok (.memory files' behind directory,
        ⟨PackageName.maintenance package, isUpdated m package version,
          (sourcesIn (withDependency files m package version)).filter
            ((withDependency files m package version).isMoved package)⟩) ∧
      rename (.memory files' behind directory) package version =
        .ok (.memory files'' behind directory, ⟨PackageName.maintenance package, false,
          (sourcesIn (withDependency files m package version)).filter
            (files'.isMoved package)⟩) := by
  obtain ⟨files', hmoved, hfirst⟩ := @rename_memory files behind directory package version m hfiles hm
  obtain ⟨m', hm', hdone⟩ := manifest_again hm hmoved
  have hkeys : Ordered (files'.map (·.1)) := hmoved.keys ▸ ordered_withDependency hfiles
  obtain ⟨files'', hmoved', hsecond⟩ :=
    @rename_memory files' behind directory package version m' hkeys hm'
  have hsame : withDependency files' m' package version = files' := by
    rw [withDependency, hdone, if_neg Bool.false_ne_true]
  have hsources : sourcesIn files' = sourcesIn (withDependency files m package version) := by
    rw [sourcesIn, hmoved.keys, ← sourcesIn]
  rw [hsame, hsources] at hmoved' hsecond
  rw [hdone] at hsecond
  exact ⟨files', files'', hmoved, hmoved', hfirst, hsecond⟩

/-- The package is renamed once and for all in the manifest. In a source it is so if moving it in the
    text twice is the same as moving it once; and whether it is in every text can be seen from the
    name of the package. -/
theorem rename_again (hfiles : Ordered (files.map (·.1)))
    (h : rename (.memory files behind directory) package version = .ok (t', done)) :
    (∃ t'' again, rename t' package version = .ok (t'', again) ∧ again.manifestUpdated = false ∧
      (∀ p, p ∈ again.sources ↔ IsSource files [] p ∧
        ∃ text ∈ files.get? p, ¬ PackageName.Settles package text) ∧
      (again.sources = [] ↔ t'' = t')) ∧
    ((∀ text, PackageName.Settles package text) ↔ ∀ x y, x ++ y = package.toList →
      PackageName.Settles package (String.ofList x ++ package) ∧
        PackageName.Settles package (package ++ String.ofList y)) := by
  refine ⟨?_, PackageName.settles_iff⟩
  obtain ⟨m, hm⟩ := exists_manifest_of_rename h
  obtain ⟨files', files'', hmoved, hmoved', hfirst, hsecond⟩ :=
    @rename_twice files behind directory package version m hfiles hm
  rw [h] at hfirst
  cases hfirst
  refine ⟨_, _, hsecond, rfl, fun p => ?_, ?_⟩
  · rw [List.mem_filter, mem_sourcesIn, isSource_withDependency]
    refine and_congr_right fun hp => ?_
    rw [FileMap.isMoved, hmoved.moved p (mem_sourcesIn.2 (isSource_withDependency.2 hp)),
      get?_withDependency hp.extension, bne_iff_ne]
    cases files.get? p with
    | none => simp
    | some text => simp [PackageName.Settles]
  · constructor
    · intro hnone
      rw [hmoved'.same hnone]
    · intro heq
      cases heq
      refine List.filter_eq_nil_iff.2 fun p hp => ?_
      rw [FileMap.isMoved, ← hmoved'.moved p hp]
      simp

end

/-! ### A name that settles and one that does not -/

/-- The manifest of a package that depends on another one. -/
def dependentManifest (package : String) : Manifest :=
  ⟨[("dependencies", .object [(package, .string "1")])]⟩

theorem lasting_dependentManifest (package : String) : (dependentManifest package).Lasting where
  settled := by
    intro fields h
    simp [dependentManifest, Json.Value.within_object, Json.Value.within_string] at h
    rcases h with rfl | rfl
    · exact List.nodup_singleton _
    · exact List.nodup_singleton _
  proper := by rfl
  words := by simp [dependentManifest, Json.Value.within_object, Json.Value.within_string]

/-- A source that imports a package, and the manifest that declares it. -/
def dependentFiles (package : String) : FileMap :=
  [(⟨"a.ts"⟩, "import '" ++ package ++ "';"),
    (⟨"package.json"⟩, (dependentManifest package).render)]

def dependentTree (package : String) : Tree := .memory (dependentFiles package) (.directory []) ⟨"/"⟩

theorem ordered_dependentFiles (package : String) :
    Ordered ((dependentFiles package).map (·.1)) := by
  have hlt : (Path.mk "a.ts").order ⟨"package.json"⟩ = .lt := by decide +kernel
  exact List.pairwise_pair.2 hlt

theorem manifest_dependentTree (package : String) :
    (dependentTree package).manifest = .ok (dependentManifest package) := by
  have hne : (Path.mk "a.ts").sameAs manifestPath = false := by decide +kernel
  have heq : (Path.mk "package.json").sameAs manifestPath = true := Path.sameAs_refl _
  have hread : (dependentTree package).read manifestPath =
      some (dependentManifest package).render := by
    rw [dependentTree, Tree.read, dependentFiles, FileMap.get?_cons, hne,
      if_neg Bool.false_ne_true, FileMap.get?_cons, if_pos heq, Option.some_or]
  rw [Tree.manifest, hread]
  exact congrArg (Except.mapError Failure.manifest)
    (Manifest.parse_render (lasting_dependentManifest package) manifestPath)

/-- The package in its old scope is renamed once. -/
theorem rename_again_scoped : ∃ t' done, rename (dependentTree "@ngx-foo/bar") "@ngx-foo/bar" "2" =
      .ok (t', done) ∧ done.manifestUpdated = true ∧ done.sources = [⟨"a.ts"⟩] ∧
    ∃ again, rename t' "@ngx-foo/bar" "2" = .ok (t', again) ∧ again.manifestUpdated = false ∧
      again.sources = [] := by
  have hfiles := ordered_dependentFiles "@ngx-foo/bar"
  obtain ⟨files', -, hmoved, -, hfirst, -⟩ :=
    @rename_twice _ (.directory []) ⟨"/"⟩ "@ngx-foo/bar" "2" _ hfiles (manifest_dependentTree _)
  obtain ⟨⟨t'', again, hsecond, hmanifest, hsources, hsame⟩, -⟩ := rename_again hfiles hfirst
  have hnone : again.sources = [] := by
    refine List.eq_nil_iff_forall_not_mem.2 fun p hp => ?_
    obtain ⟨hp, text, htext, hunsettled⟩ := (hsources p).1 hp
    have hpath : p = ⟨"a.ts"⟩ := by
      rcases List.mem_cons.1 hp.mem with hp' | hp'
      · exact hp'
      · rw [List.mem_singleton.1 hp'] at hp
        exact absurd hp.extension (by decide +kernel)
    have hget : (dependentFiles "@ngx-foo/bar").get? p = some "import '@ngx-foo/bar';" := by
      rw [hpath]
      rfl
    rw [hget] at htext
    obtain rfl := Option.some.inj htext
    exact hunsettled (by rw [PackageName.Settles]; decide +kernel)
  rw [hsame.1 hnone] at hsecond
  exact ⟨_, _, hfirst, by decide +kernel, by decide +kernel, again, hsecond, hmanifest, hnone⟩

/-- The maintenance scope has the name of this package in it, so in a second run the new import is
    taken for one of the old package. -/
theorem rename_nests_scope : ∃ t' done t'' again,
    rename (dependentTree "ngx") "ngx" "2" = .ok (t', done) ∧
    t'.read ⟨"a.ts"⟩ = some "import '@ngx-maintenance/ngx';" ∧
    rename t' "ngx" "2" = .ok (t'', again) ∧ again.sources = [⟨"a.ts"⟩] ∧
    t''.read ⟨"a.ts"⟩ = some "import '@@ngx-maintenance/ngx-maintenance/ngx';" := by
  obtain ⟨files', files'', hmoved, hmoved', hfirst, hsecond⟩ :=
    @rename_twice _ (.directory []) ⟨"/"⟩ "ngx" "2" _ (ordered_dependentFiles "ngx")
      (manifest_dependentTree "ngx")
  have hsources : sourcesIn (withDependency (dependentFiles "ngx") (dependentManifest "ngx") "ngx" "2") =
      [⟨"a.ts"⟩] := by decide +kernel
  rw [hsources] at hmoved hmoved' hfirst hsecond
  have hget : files'.get? ⟨"a.ts"⟩ = some "import '@ngx-maintenance/ngx';" := by
    rw [hmoved.moved _ List.mem_cons_self]
    decide +kernel
  have hget' : files''.get? ⟨"a.ts"⟩ = some "import '@@ngx-maintenance/ngx-maintenance/ngx';" := by
    rw [hmoved'.moved _ List.mem_cons_self, hget]
    decide +kernel
  have hmoves : files'.isMoved "ngx" ⟨"a.ts"⟩ = true := by
    rw [FileMap.isMoved, hget]
    decide +kernel
  refine ⟨_, _, _, _, hfirst, ?_, hsecond, ?_, ?_⟩
  · rw [Tree.read, hget]
    rfl
  · rw [List.filter_cons, if_pos hmoves]
    rfl
  · rw [Tree.read, hget']
    rfl

end Workspace
end RouterShift
