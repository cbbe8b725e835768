import Mathlib.Data.List.Forall2
import RouterShift.Proofs.Disk.Walk
import RouterShift.Proofs.Path.Components
import RouterShift.Proofs.Workspace.Files

/-! Listing a workspace, in memory and on disk. Files in memory are filtered out of a map in the
    order of paths; on disk directories are walked by the names in them, and whole subtrees left
    out. Where no ignore file speaks the two list the same paths in the same order, those without a
    hidden or vendored component (`list_memory_disk`). -/

namespace RouterShift.Workspace

open Disk (isSeen isPassedOver IsIgnoreFile IsUnruled levelsAbove)

/-- Files put into memory one after the other. -/
def FileMap.ofFiles (files : List (Path × String)) : FileMap :=
  files.foldl (fun m f => m.insert f.1 f.2) []

/-- A tree has the files of a map, and no others. -/
def Holds (tree : Entry) (m : FileMap) : Prop :=
  ∀ names content, tree.at? names = some (.file content) ↔
    ∃ f ∈ m, f.1.components = names.map .name ∧ content = .ofString f.2

/-- A path of names, and not to an ignore file. -/
def IsOrdinary (p : Path) : Prop :=
  ∃ names : List String, p.components = names.map .name ∧ ¬ IsIgnoreFile names

variable {files : List (Path × String)} {m : FileMap} {whole tree behind : Entry}
  {root directory p : Path} {names : List String}

/-! ### In memory -/

theorem FileMap.keys_ofFiles (files : List (Path × String)) :
    (ofFiles files).map (·.1) = pathSet (files.map (·.1)) := by
  have hfold (m : FileMap) : (files.foldl (fun m f => m.insert f.1 f.2) m).map (·.1) =
      (files.map (·.1)).foldl (fun set p => insertPath p set) (m.map (·.1)) := by
    induction files generalizing m with
    | nil => rfl
    | cons f files ih => rw [List.foldl_cons, ih, keys_insert, List.map_cons, List.foldl_cons]
  exact hfold []

theorem any_isLeftOut (names : List String) :
    (names.map Component.name).any Tree.isLeftOut = !isSeen names := by
  have hsame : Tree.isLeftOut ∘ Component.name = isPassedOver :=
    funext fun name => Bool.or_comm (name == Disk.vendored) (Disk.isHidden name)
  rw [List.any_map, isSeen, Bool.not_not, hsame]

theorem not_any_isLeftOut (p : Path) : (!p.components.any Tree.isLeftOut) = true ↔
    ∀ name, .name name ∈ p.components → name ≠ "node_modules" ∧ name.toList.head? ≠ some '.' := by
  rw [Bool.not_eq_true', List.any_eq_false]
  constructor
  · intro h name hname
    have hshown := h _ hname
    simpa [Tree.isLeftOut, Disk.vendored, Disk.isHidden] using hshown
  · intro h c hc
    cases c with
    | name name =>
      have hshown := h name hc
      simpa [Tree.isLeftOut, Disk.vendored, Disk.isHidden] using hshown
    | _ => simp [Tree.isLeftOut]

/-! ### On disk -/

/-- The components of a path that was found below the start of a walk. -/
theorem components_foldl_join_names (root : Path)
    (hnames : ∀ name ∈ names, Path.IsSpelled (.name name)) :
    (names.foldl (fun p name => p.join name) root).components =
      root.components ++ names.map .name := by
  have hspelled : ∀ c ∈ names.map Component.name, Path.IsSpelled c := by
    intro c hc
    obtain ⟨name, hname, rfl⟩ := List.mem_map.1 hc
    exact hnames name hname
  have hstep : ∀ c ∈ names.map Component.name, c = .parent ∨ ∃ s, c = .name s := by
    intro c hc
    obtain ⟨name, -, rfl⟩ := List.mem_map.1 hc
    exact .inr ⟨name, rfl⟩
  by_cases hempty : root.text.toList = []
  · obtain rfl : root = ⟨""⟩ := congrArg Path.mk (String.toList_eq_nil_iff.1 hempty)
    have hjoin := Path.components_ofComponents hspelled fun c hc => hstep c (List.mem_of_mem_tail hc)
    rw [Path.ofComponents, List.foldl_map] at hjoin
    exact hjoin
  · have hjoin := Path.components_foldl_join hspelled hstep hempty
    rw [List.foldl_map] at hjoin
    exact hjoin

/-- On disk the files of the root directory are listed that nothing hides. -/
theorem list_disk (hlocate : whole.locate? [] root = some tree) (hunruled : IsUnruled tree)
    (houtside : ∀ names, whole.names? [] root = some names →
      ∀ l ∈ levelsAbove whole names, l.IsSilent)
    (hspelled : ∀ f ∈ tree.files, ∀ name ∈ f.1, Path.IsSpelled (.name name)) :
    ∃ paths, (Tree.disk whole root).list ⟨"."⟩ = .ok paths ∧
      paths.map Path.components =
        ((tree.files.map (·.1)).filter isSeen).map fun names => names.map .name := by
  obtain ⟨names, hnames, -⟩ := Option.bind_eq_some_iff.1 hlocate
  have hvisit : Disk.visit? whole root = some (((tree.files.map (·.1)).filter isSeen).map fun way =>
      way.foldl (fun p name => p.join name) root) := by
    have hempty : (fun way : List String => [] ++ way) = id := rfl
    rw [Disk.visit?, hnames, hlocate]
    simp only [Option.bind_eq_bind, Option.bind_some, Disk.walk_eq hunruled (houtside names hnames),
      hempty, List.map_id]
    rfl
  have hstart : Tree.absolute root ⟨"."⟩ = root := by
    rw [Tree.absolute, if_pos (by decide)]
  simp only [Tree.list, hstart, hvisit]
  refine ⟨_, rfl, ?_⟩
  rw [List.map_map, List.map_map]
  refine List.map_congr_left fun way hway => ?_
  obtain ⟨f, hf, rfl⟩ := List.mem_map.1 (List.mem_filter.1 hway).1
  obtain ⟨q, hq, hcomponents⟩ :=
    Path.components_below? (components_foldl_join_names root (hspelled f hf))
  simp only [Function.comp_apply, hq, Option.getD_some, hcomponents]

/-! ### Both -/

section
variable (hfiles : ∀ f ∈ files, IsOrdinary f.1) (hholds : Holds tree (.ofFiles files))

include hfiles in
/-- The files of the map are ordinary as those put into it are. -/
theorem isOrdinary_of_mem_ofFiles {f : Path × String} (hf : f ∈ FileMap.ofFiles files) :
    IsOrdinary f.1 := by
  have hkey : f.1 ∈ (FileMap.ofFiles files).map (·.1) := List.mem_map_of_mem hf
  rw [FileMap.keys_ofFiles] at hkey
  obtain ⟨g, hg, hgf⟩ := List.mem_map.1 ((pathSet_spec _).2 _ hkey)
  rw [← hgf]
  exact hfiles g hg

include hfiles hholds in
theorem isUnruled_of_holds (hsorted : tree.Sorted) : IsUnruled tree := by
  intro f hf hrules
  obtain ⟨g, hg, hcomponents, -⟩ := (hholds f.1 f.2).1 ((Entry.mem_files_iff hsorted).1 hf)
  obtain ⟨names, hnames, hordinary⟩ := isOrdinary_of_mem_ofFiles hfiles hg
  rw [hcomponents] at hnames
  rw [← (List.map_inj_right fun _ _ => Component.name.inj).1 hnames] at hordinary
  exact hordinary hrules

include hholds in
theorem isSpelled_of_holds (hsorted : tree.Sorted) {f : List String × Content}
    (hf : f ∈ tree.files) {name : String} (hname : name ∈ f.1) : Path.IsSpelled (.name name) := by
  obtain ⟨g, hg, hcomponents, -⟩ := (hholds f.1 f.2).1 ((Entry.mem_files_iff hsorted).1 hf)
  refine Path.isSpelled_of_mem_components (p := g.1) ?_
  rw [hcomponents]
  exact List.mem_map_of_mem hname

include hfiles hholds in
/-- Memory and disk have the same components to list. -/
theorem components_eq_of_holds (hsorted : tree.Sorted) :
    (((FileMap.ofFiles files).map (·.1)).filter fun p =>
        !p.components.any Tree.isLeftOut).map Path.components =
      ((tree.files.map (·.1)).filter isSeen).map fun names => names.map .name := by
  refine eq_of_pairwise_lt Path.orderComponents ?_ ?_ fun x => ?_
  · rw [FileMap.keys_ofFiles, List.pairwise_map]
    exact (pathSet_spec _).1.filter _
  · rw [List.pairwise_map]
    exact (Entry.ordered_files hsorted).filter _
  · simp only [List.mem_map, List.mem_filter]
    constructor
    · rintro ⟨p, ⟨⟨f, hf, rfl⟩, hseen⟩, rfl⟩
      obtain ⟨names, hnames, -⟩ := isOrdinary_of_mem_ofFiles hfiles hf
      rw [hnames, any_isLeftOut, Bool.not_not] at hseen
      have hat := (hholds names (.ofString f.2)).2 ⟨f, hf, hnames, rfl⟩
      exact ⟨names, ⟨⟨_, (Entry.mem_files_iff hsorted).2 hat, rfl⟩, hseen⟩, hnames.symm⟩
    · rintro ⟨names, ⟨⟨f, hf, rfl⟩, hseen⟩, rfl⟩
      obtain ⟨g, hg, hnames, -⟩ := (hholds f.1 f.2).1 ((Entry.mem_files_iff hsorted).1 hf)
      refine ⟨g.1, ⟨⟨g, hg, rfl⟩, ?_⟩, hnames⟩
      rw [hnames, any_isLeftOut, Bool.not_not]
      exact hseen

end

/-- A sorted tree holds a map when the two list the same files. -/
theorem holds_of_files (hsorted : tree.Sorted)
    (h : tree.files.map (fun f => (f.1.map Component.name, f.2)) =
      m.map fun f => (f.1.components, Content.ofString f.2)) : Holds tree m := by
  intro names content
  rw [← Entry.mem_files_iff hsorted]
  constructor
  · intro hmem
    have hlisted := List.mem_map_of_mem (f := fun f => (f.1.map Component.name, f.2)) hmem
    rw [h] at hlisted
    obtain ⟨f, hf, heq⟩ := List.mem_map.1 hlisted
    rw [Prod.mk.injEq] at heq
    exact ⟨f, hf, heq.1, heq.2.symm⟩
  · rintro ⟨f, hf, hnames, rfl⟩
    have hlisted := List.mem_map_of_mem
      (f := fun f : Path × String => (f.1.components, Content.ofString f.2)) hf
    rw [← h] at hlisted
    obtain ⟨⟨ns, c⟩, hmem, heq⟩ := List.mem_map.1 hlisted
    rw [Prod.mk.injEq, hnames] at heq
    obtain ⟨hns, rfl⟩ := heq
    rwa [← (List.map_inj_right fun _ _ => Component.name.inj).1 hns]

/-- The two trees agree. Of files with ordinary paths, put into memory in any order, and of a root
    directory on disk that holds them, where no rules come from above it, the same paths are listed
    in the same order: those with no component that is hidden or vendored, by their components. -/
theorem list_memory_disk (hfiles : ∀ f ∈ files, IsOrdinary f.1)
    {entries : List (String × Entry)}
    (hlocate : whole.locate? [] root = some (.directory entries))
    (hsorted : (Entry.directory entries).Sorted)
    (hholds : Holds (.directory entries) (.ofFiles files))
    (houtside : ∀ names, whole.names? [] root = some names →
      ∀ l ∈ levelsAbove whole names, l.IsSilent) (behind : Entry) (directory : Path) :
    ∃ inMemory onDisk,
      (Tree.memory (.ofFiles files) behind directory).list ⟨"."⟩ = .ok inMemory ∧
      (Tree.disk whole root).list ⟨"."⟩ = .ok onDisk ∧
      List.Forall₂ (fun p q => p.sameAs q) inMemory onDisk ∧ Ordered inMemory ∧
      ∀ p, (∃ q ∈ inMemory, q.sameAs p) ↔ (∃ f ∈ files, f.1.sameAs p) ∧
        ∀ name, .name name ∈ p.components → name ≠ "node_modules" ∧
          name.toList.head? ≠ some '.' := by
  have hunruled := isUnruled_of_holds hfiles hholds hsorted
  obtain ⟨onDisk, hdisk, hcomponents⟩ := list_disk hlocate hunruled houtside
    fun f hf name hname => isSpelled_of_holds hholds hsorted hf hname
  rw [← components_eq_of_holds hfiles hholds hsorted] at hcomponents
  refine ⟨_, onDisk, list_memory _, hdisk, ?_, ?_, fun p => ?_⟩
  · have hsame := hcomponents.symm
    rw [← List.forall₂_eq_eq_eq, List.forall₂_map_left_iff, List.forall₂_map_right_iff] at hsame
    exact hsame.imp fun p q hpq => Path.sameAs_iff.2 hpq
  · rw [FileMap.keys_ofFiles]
    exact (pathSet_spec _).1.filter _
  · rw [FileMap.keys_ofFiles, ← not_any_isLeftOut]
    constructor
    · rintro ⟨q, hq, hsame⟩
      obtain ⟨hmem, hseen⟩ := List.mem_filter.1 hq
      obtain ⟨f, hf, rfl⟩ := List.mem_map.1 ((pathSet_spec _).2 q hmem)
      exact ⟨⟨f, hf, hsame⟩, Path.sameAs_iff.1 hsame ▸ hseen⟩
    · rintro ⟨⟨f, hf, hsame⟩, hseen⟩
      obtain ⟨q, hq, hqf⟩ := exists_mem_pathSet (List.mem_map_of_mem (f := (·.1)) hf)
      have hqp : q.sameAs p := (Path.sameAs_congr hqf p).trans hsame
      exact ⟨q, List.mem_filter.2 ⟨hq, (Path.sameAs_iff.1 hqp).symm ▸ hseen⟩, hqp⟩

/-- A directory, files whose names begin like its own, and one that is hidden. -/
def besideFiles : List (Path × String) :=
  [(⟨"a.ts"⟩, ""), (⟨"a/x.ts"⟩, ""), (⟨".cache/z.ts"⟩, ""), (⟨"a-b/y.ts"⟩, "")]

/-- The same on disk. -/
def besideTree : List (String × Entry) :=
  [(".cache", .directory [("z.ts", .file (.ofString ""))]),
    ("a", .directory [("x.ts", .file (.ofString ""))]),
    ("a-b", .directory [("y.ts", .file (.ofString ""))]), ("a.ts", .file (.ofString ""))]

theorem list_memory_disk_beside : ∃ inMemory onDisk,
    (Tree.memory (.ofFiles besideFiles) (.directory []) ⟨"/"⟩).list ⟨"."⟩ = .ok inMemory ∧
    (Tree.disk (.directory [("w", .directory besideTree)]) ⟨"/w"⟩).list ⟨"."⟩ = .ok onDisk ∧
    List.Forall₂ (fun p q => p.sameAs q) inMemory onDisk ∧
    inMemory = [⟨"a/x.ts"⟩, ⟨"a-b/y.ts"⟩, ⟨"a.ts"⟩] := by
  have hsorted : (Entry.directory besideTree).Sorted := by
    simp [besideTree]
    decide
  have hholds : Holds (.directory besideTree) (.ofFiles besideFiles) :=
    holds_of_files hsorted (by decide +kernel)
  have hfiles : ∀ f ∈ besideFiles, IsOrdinary f.1 := by
    simp only [besideFiles, List.forall_mem_cons]
    refine ⟨⟨["a.ts"], ?_⟩, ⟨["a", "x.ts"], ?_⟩, ⟨[".cache", "z.ts"], ?_⟩, ⟨["a-b", "y.ts"], ?_⟩,
      nofun⟩
    all_goals exact ⟨by decide +kernel, by simp only [IsIgnoreFile]; decide⟩
  have houtside : ∀ names, (Entry.directory [("w", .directory besideTree)]).names? [] ⟨"/w"⟩ =
      some names → ∀ l ∈ levelsAbove (.directory [("w", .directory besideTree)]) names,
        l.IsSilent := by
    intro names hnames l hl
    cases hnames
    obtain rfl := List.mem_singleton.1 hl
    exact ⟨rfl, rfl, rfl⟩
  obtain ⟨inMemory, onDisk, hmemory, hdisk, hsame, -⟩ :=
    list_memory_disk hfiles rfl hsorted hholds houtside (.directory []) ⟨"/"⟩
  refine ⟨inMemory, onDisk, hmemory, hdisk, hsame, ?_⟩
  rw [list_memory, Except.ok.injEq] at hmemory
  rw [← hmemory]
  decide +kernel

end RouterShift.Workspace
