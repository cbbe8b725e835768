import RouterShift.Disk.Search
import RouterShift.Proofs.Disk.Files

/-! Walks where nothing is ignored. Without rules from above and without an ignore file below, a
    walk leaves out only what is hidden or vendored: it finds the files of a tree that have no such
    name on the way to them, in the order of the tree (`walk_eq`). -/

namespace RouterShift.Ignore

variable {levels : List Level} {names : List String}

/-- A level without rules. -/
structure Level.IsSilent (l : Level) : Prop where
  own : l.own = []
  shared : l.shared = []
  excluded : l.excluded = []

/-- Where there are no rules nothing is said. -/
theorem verdict?_of_isSilent (h : ∀ l ∈ levels, l.IsSilent) (isDirectory : Bool) :
    verdict? levels names isDirectory = none := by
  have hask (rules : Level → List Rule) (hrules : ∀ l ∈ levels, rules l = []) :
      levels.findSome? (fun l => decide? (rules l) (names.drop l.directory.length) isDirectory) =
        none := by
    refine List.findSome?_eq_none_iff.2 fun l hl => ?_
    rw [hrules l hl]
    rfl
  unfold verdict?
  dsimp only
  rw [hask _ fun l hl => (h l hl).own, hask _ fun l hl => (h l hl).shared,
    hask _ fun l hl => (h l hl).excluded]
  rfl

end RouterShift.Ignore

namespace RouterShift.Disk

open Ignore (Level verdict?_of_isSilent)
open Entry (files filesAmong)

variable {e tree : Entry} {entries : List (String × Entry)} {name : String}
  {names way : List String} {levels : List Level}

/-- The names of a file that rules are read from. -/
def IsIgnoreFile (names : List String) : Prop :=
  [".ignore"] <:+ names ∨ [".gitignore"] <:+ names ∨ [".git", "info", "exclude"] <:+ names

theorem IsIgnoreFile.cons (h : IsIgnoreFile names) (name : String) : IsIgnoreFile (name :: names) :=
  h.imp (·.trans (List.suffix_cons _ _))
    (·.imp (·.trans (List.suffix_cons _ _)) (·.trans (List.suffix_cons _ _)))

/-- No file of the tree is one that rules are read from. -/
def IsUnruled (e : Entry) : Prop := ∀ f ∈ e.files, ¬ IsIgnoreFile f.1

theorem IsUnruled.of_mem (h : IsUnruled (.directory entries)) (hmem : (name, e) ∈ entries) :
    IsUnruled e := by
  intro f hf hrules
  have hlisted : (name :: f.1, f.2) ∈ (Entry.directory entries).files := by
    rw [files]
    exact Entry.mem_filesAmong_iff.2 ⟨name, e, f.1, hmem, hf, rfl⟩
  exact h _ hlisted (hrules.cons name)

/-- The directory of an unruled tree brings no rules along. -/
theorem IsUnruled.isSilent (h : IsUnruled (.directory entries)) (names : List String) :
    (Level.of names entries).IsSilent := by
  have hfile (file : List String) (content : Content) (hrules : IsIgnoreFile file) :
      (Entry.directory entries).at? file ≠ some (.file content) :=
    fun hat => h _ (Entry.mem_files_of_at? hat) hrules
  constructor
  all_goals
    rw [Level.of]
    dsimp only
    split
    · next content hat =>
      refine absurd hat (hfile _ content ?_)
      simp [IsIgnoreFile]
    · rfl

/-- Nothing on the way is passed over. -/
def isSeen (names : List String) : Bool := !names.any isPassedOver

theorem skips_of_isSilent (h : ∀ l ∈ levels, l.IsSilent) (e : Entry) :
    skips levels names name e = isPassedOver name := by
  rw [skips, verdict?_of_isSilent h, isPassedOver, Bool.or_comm (isHidden name)]

/-- The files below an entry that are seen, each with the name of the entry in front. -/
theorem filter_isSeen_map_cons (name : String) (ways : List (List String)) :
    (ways.map (name :: ·)).filter isSeen =
      if isPassedOver name then [] else (ways.filter isSeen).map (name :: ·) := by
  rw [List.filter_map]
  split
  · next hname =>
    have hnone : ways.filter (isSeen ∘ (name :: ·)) = [] :=
      List.filter_eq_nil_iff.2 fun ns _ => by simp [isSeen, hname]
    rw [hnone, List.map_nil]
  · next hname =>
    have hsame : isSeen ∘ (name :: ·) = isSeen := by
      funext ns
      simp [isSeen, hname]
    rw [hsame]

mutual
/-- A walk of an unruled tree finds all files but those that are hidden or vendored, or below a
    directory that is. -/
theorem walk_eq : ∀ {e : Entry} {levels : List Level} {names way : List String}, IsUnruled e →
    (∀ l ∈ levels, l.IsSilent) →
      walk levels names way e = ((e.files.map (·.1)).filter isSeen).map (way ++ ·)
  | .file c, _, _, way, _, _ => by
    rw [walk, files]
    simp [isSeen]
  | .directory entries, levels, names, way, h, hlevels => by
    rw [walk, files]
    refine walkAmong_eq (fun f hf => h.of_mem hf) fun l hl => ?_
    rcases List.mem_cons.1 hl with rfl | hl
    · exact h.isSilent names
    · exact hlevels l hl

theorem walkAmong_eq : ∀ {entries : List (String × Entry)} {levels : List Level}
    {names way : List String}, (∀ f ∈ entries, IsUnruled f.2) → (∀ l ∈ levels, l.IsSilent) →
      walkAmong levels names way entries =
        (((filesAmong entries).map (·.1)).filter isSeen).map (way ++ ·)
  | [], _, _, _, _, _ => by
    rw [walkAmong, filesAmong]
    rfl
  | (name, e) :: rest, levels, names, way, h, hlevels => by
    have hrest := @walkAmong_eq rest levels names way
      (fun f hf => h f (List.mem_cons_of_mem _ hf)) hlevels
    have hnames : (e.files.map fun (ns, c) => (name :: ns, c)).map (·.1) =
        (e.files.map (·.1)).map (name :: ·) := by
      rw [List.map_map, List.map_map]
      rfl
    rw [walkAmong, filesAmong, List.map_append, List.filter_append, List.map_append, hrest, hnames,
      filter_isSeen_map_cons, skips_of_isSilent hlevels]
    split
    · rfl
    · rw [walk_eq (h _ List.mem_cons_self) hlevels, List.map_map]
      simp [Function.comp_def]
end

end RouterShift.Disk
