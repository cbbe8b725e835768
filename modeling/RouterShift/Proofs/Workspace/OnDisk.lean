import RouterShift.Proofs.Disk.Rewrite
import RouterShift.Proofs.Workspace.Changes

/-! Migrations on disk. A plan only changes files that it has read, and a file that can be read can
    be written; so applying a plan succeeds in every one of its writes, and a migration that fails
    has failed before the first of them (`plan_of_migrate_disk`). -/

namespace RouterShift.Workspace

variable {whole : Entry} {root : Path} {cs : List Component}

/-- Paths of a workspace are absolute on disk when its root is. -/
theorem components_absolute (hroot : root.components = .root :: cs) (p : Path) :
    ∃ more, (Tree.absolute root p).components = .root :: more := by
  rw [Tree.absolute]
  split
  · exact ⟨cs, hroot⟩
  · by_cases hslash : p.text.toList.head? = some '/'
    · obtain ⟨text, htext⟩ := List.head?_eq_some_iff.1 hslash
      rw [Path.join, if_pos hslash]
      exact ⟨_, by rw [Path.components, htext, Path.componentsOf_slash]⟩
    · exact ⟨_, Path.components_join hroot hslash⟩

/-- A file that was read can be written, and what could be read can be read still. -/
theorem exists_write_disk (hroot : root.components = .root :: cs) {p : Path} {before : String}
    (hread : (Tree.disk whole root).read p = some before) (text : String) :
    ∃ written, (Tree.disk whole root).write p text = .ok (.disk written root) ∧
      ∀ q old, (Tree.disk whole root).read q = some old →
        ∃ new, (Tree.disk written root).read q = some new := by
  obtain ⟨more, habsolute⟩ := components_absolute hroot p
  obtain ⟨made, written, names, content, hmade, hwritten, hfile, hglance⟩ :=
    Entry.exists_rewrite habsolute hread (.ofString text)
  refine ⟨written, ?_, fun q old hq => Entry.exists_readText? hfile hglance hq⟩
  simp only [Tree.write, hmade, hwritten]

/-- Changes to files that can be read can all be written. -/
theorem exists_apply_disk (hroot : root.components = .root :: cs) (report : Report)
    (hread : ∀ c ∈ report.changes, ∃ before, (Tree.disk whole root).read c.path = some before) :
    ∃ done, apply (.disk whole root) report = .ok done := by
  have hwrites (changes : List FileChange) (whole : Entry)
      (hread : ∀ c ∈ changes, ∃ before, (Tree.disk whole root).read c.path = some before) :
      ∃ t, changes.foldlM (fun (t : Tree) c => (t.write c.path c.after).mapError (.writing c.path))
        (.disk whole root) = (.ok t : Except Failure Tree) := by
    induction changes generalizing whole with
    | nil => exact ⟨_, rfl⟩
    | cons c changes ih =>
      obtain ⟨before, hbefore⟩ := hread c List.mem_cons_self
      obtain ⟨written, hwrite, hkeeps⟩ := exists_write_disk hroot hbefore c.after
      obtain ⟨t, ht⟩ := ih written fun d hd => by
        obtain ⟨old, hold⟩ := hread d (List.mem_cons_of_mem c hd)
        exact hkeeps d.path old hold
      exact ⟨t, foldlM_cons_eq_ok.2 ⟨_, mapError_eq_ok.2 hwrite, ht⟩⟩
  obtain ⟨t, ht⟩ := hwrites report.changes whole hread
  exact ⟨(t, { report with applied := true }), bind_eq_ok.2 ⟨t, ht, rfl⟩⟩

section
variable [TypeScript.Reader]

/-- A migration on disk that fails had no plan. -/
theorem plan_of_migrate_disk (hroot : root.components = .root :: cs) {roots : List Path}
    {failure : Failure} (h : migrate (.disk whole root) roots false = .error failure) :
    plan (.disk whole root) roots = .error failure := by
  cases hplan : plan (.disk whole root) roots with
  | error e =>
    rw [migrate, hplan] at h
    cases h
    rfl
  | ok report =>
    have hpaths : ∃ paths, sources (.disk whole root) roots = .ok paths := by
      obtain ⟨paths, hpaths, -⟩ := bind_eq_ok.1 hplan
      exact ⟨paths, hpaths⟩
    obtain ⟨paths, hpaths⟩ := hpaths
    obtain ⟨hjustified, -⟩ := plan_changes hplan hpaths (distinct_of_sources hpaths)
    obtain ⟨done, hdone⟩ := exists_apply_disk hroot report fun c hc =>
      ⟨c.before, (hjustified c hc).read⟩
    rw [migrate, hplan] at h
    have happly : apply (.disk whole root) report = .error failure := h
    rw [hdone] at happly
    cases happly

/-- What a migration on disk leaves is on disk. -/
theorem exists_disk_of_migrate {roots : List Path} {after : Tree} {report : Report}
    (h : migrate (.disk whole root) roots false = .ok (after, report)) :
    ∃ written, after = .disk written root := by
  have hwrites (changes : List FileChange) (whole : Entry) {t : Tree}
      (h : changes.foldlM (fun (t : Tree) c => (t.write c.path c.after).mapError (.writing c.path))
        (.disk whole root) = (.ok t : Except Failure Tree)) : ∃ written, t = .disk written root := by
    induction changes generalizing whole with
    | nil =>
      cases h
      exact ⟨whole, rfl⟩
    | cons c changes ih =>
      obtain ⟨next, hwrite, hrest⟩ := foldlM_cons_eq_ok.1 h
      have hnext : ∃ written, next = .disk written root := by
        rw [mapError_eq_ok] at hwrite
        simp only [Tree.write] at hwrite
        split at hwrite
        · cases hwrite
        · split at hwrite
          · cases hwrite
          · cases hwrite
            exact ⟨_, rfl⟩
      obtain ⟨written, rfl⟩ := hnext
      exact ih written hrest
  obtain ⟨planned, -, happly⟩ := bind_eq_ok.1 h
  obtain ⟨t, ht, hdone⟩ := bind_eq_ok.1 (show apply (.disk whole root) planned = .ok _ from happly)
  cases hdone
  exact hwrites _ whole ht

end
end RouterShift.Workspace
