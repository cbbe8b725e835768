import RouterShift.Proofs.Chain
import RouterShift.Proofs.Path.Order
import RouterShift.Workspace.Plan

/-! Files in memory, and which of them a plan looks at. A file that is written is the one that is
    read from its path in any spelling, and every other path reads as before. The sources of a plan
    are a set of paths: each stands in it once, and it is a TypeScript file below one of the roots
    that is neither hidden nor vendored (`sources_memory`). -/

namespace RouterShift.Workspace

/-! ### Sets of paths -/

section
variable {p q : Path} {paths : List Path}

theorem mem_of_mem_insertPath (h : q ∈ insertPath p paths) : q = p ∨ q ∈ paths := by
  induction paths with
  | nil => exact .inl (List.mem_singleton.1 h)
  | cons r rest ih =>
    rw [insertPath] at h
    split at h
    · exact List.mem_cons.1 h
    · exact .inr h
    · rcases List.mem_cons.1 h with rfl | h
      · exact .inr List.mem_cons_self
      · exact (ih h).imp_right (List.mem_cons_of_mem r)

theorem mem_insertPath_of_mem (h : q ∈ paths) : q ∈ insertPath p paths := by
  induction paths with
  | nil => cases h
  | cons r rest ih =>
    rw [insertPath]
    split
    · exact List.mem_cons_of_mem p h
    · exact h
    · rcases List.mem_cons.1 h with rfl | h
      · exact List.mem_cons_self
      · exact List.mem_cons_of_mem r (ih h)

/-- Some spelling of an inserted path stands in the set. -/
theorem exists_mem_insertPath (p : Path) (paths : List Path) :
    ∃ q ∈ insertPath p paths, q.sameAs p := by
  induction paths with
  | nil => exact ⟨p, List.mem_singleton_self p, Path.sameAs_refl p⟩
  | cons r rest ih =>
    rw [insertPath]
    split
    · exact ⟨p, List.mem_cons_self, Path.sameAs_refl p⟩
    · next heq =>
      exact ⟨r, List.mem_cons_self, by rw [Path.sameAs_comm]; exact Path.order_eq_iff.1 heq⟩
    · obtain ⟨q, hq, hsame⟩ := ih
      exact ⟨q, List.mem_cons_of_mem r hq, hsame⟩

/-- The paths stand in strict order. -/
def Ordered (paths : List Path) : Prop := paths.Pairwise fun p q => p.order q = .lt

theorem Ordered.insertPath (h : Ordered paths) (p : Path) : Ordered (insertPath p paths) := by
  induction paths with
  | nil => exact List.pairwise_singleton _ _
  | cons q rest ih =>
    obtain ⟨hq, hrest⟩ := List.pairwise_cons.1 h
    rw [Workspace.insertPath]
    split
    · next hlt =>
      refine List.pairwise_cons.2 ⟨fun r hr => ?_, h⟩
      rcases List.mem_cons.1 hr with rfl | hr
      · exact hlt
      · exact Std.TransCmp.lt_trans hlt (hq r hr)
    · exact h
    · next hgt =>
      refine List.pairwise_cons.2 ⟨fun r hr => ?_, ih hrest⟩
      rcases mem_of_mem_insertPath hr with rfl | hr
      · exact Std.OrientedCmp.gt_iff_lt.1 hgt
      · exact hq r hr

theorem pathSet_spec (paths : List Path) :
    Ordered (pathSet paths) ∧ ∀ p ∈ pathSet paths, p ∈ paths := by
  have hfold (rest set : List Path) (hset : Ordered set) (hmem : ∀ p ∈ set, p ∈ paths)
      (hrest : ∀ p ∈ rest, p ∈ paths) :
      Ordered (rest.foldl (fun set p => insertPath p set) set) ∧
        ∀ p ∈ rest.foldl (fun set p => insertPath p set) set, p ∈ paths := by
    induction rest generalizing set with
    | nil => exact ⟨hset, hmem⟩
    | cons p rest ih =>
      refine ih _ (hset.insertPath p) (fun q hq => ?_) fun q hq =>
        hrest q (List.mem_cons_of_mem p hq)
      rcases mem_of_mem_insertPath hq with rfl | hq
      · exact hrest q List.mem_cons_self
      · exact hmem q hq
  exact hfold paths [] .nil (by simp) fun p hp => hp

theorem exists_mem_pathSet (h : p ∈ paths) : ∃ q ∈ pathSet paths, q.sameAs p := by
  have hkept (rest set : List Path) (q : Path) (hq : q ∈ set) :
      q ∈ rest.foldl (fun set p => insertPath p set) set := by
    induction rest generalizing set with
    | nil => exact hq
    | cons p rest ih => exact ih _ (mem_insertPath_of_mem hq)
  obtain ⟨front, rest, rfl⟩ := List.append_of_mem h
  obtain ⟨q, hq, hsame⟩ := exists_mem_insertPath p (pathSet front)
  refine ⟨q, ?_, hsame⟩
  rw [pathSet, List.foldl_append]
  exact hkept rest _ q hq

/-- Lists in strict order are one when they have the same members. -/
theorem eq_of_pairwise_lt {α : Type} (cmp : α → α → Ordering) [Std.OrientedCmp cmp] {xs ys : List α}
    (hxs : xs.Pairwise fun a b => cmp a b = .lt) (hys : ys.Pairwise fun a b => cmp a b = .lt)
    (h : ∀ x, x ∈ xs ↔ x ∈ ys) : xs = ys := by
  have hirrefl {a b : α} (hab : cmp a b = .lt) : a ≠ b := by
    rintro rfl
    have hself : cmp a a = .eq := Std.ReflCmp.compare_self
    rw [hself] at hab
    cases hab
  have hperm : xs.Perm ys :=
    (List.perm_ext_iff_of_nodup (hxs.imp hirrefl) (hys.imp hirrefl)).2 h
  refine hperm.eq_of_pairwise (fun a b _ _ hab hba => ?_) hxs hys
  have hgt : cmp a b = .gt := Std.OrientedCmp.gt_iff_lt.2 hba
  rw [hab] at hgt
  cases hgt

/-- No two paths of the list are one. -/
def Distinct (paths : List Path) : Prop := paths.Pairwise fun p q => p.sameAs q = false

theorem Ordered.distinct (h : Ordered paths) : Distinct paths :=
  h.imp fun hlt => Path.sameAs_of_order hlt (by decide)

end

/-! ### Files in memory -/

namespace FileMap

variable {m : FileMap} {p q : Path} {text : String}

theorem keys_insert : (m.insert p text).map (·.1) = insertPath p (m.map (·.1)) := by
  induction m with
  | nil => rfl
  | cons file rest ih =>
    obtain ⟨q, t⟩ := file
    rw [insert, List.map_cons, insertPath]
    cases p.order q with
    | lt => rfl
    | eq => rfl
    | gt => exact congrArg (q :: ·) ih

theorem get?_cons (r : Path) (t : String) (m : FileMap) (p : Path) :
    get? ((r, t) :: m) p = if r.sameAs p then some t else get? m p := by
  rw [get?, List.find?_cons]
  cases r.sameAs p <;> rfl

/-- What was written is read, in whatever spelling of the path. -/
theorem get?_insert_self (h : p.sameAs q) : get? (insert p text m) q = some text := by
  induction m with
  | nil => rw [insert, get?_cons, if_pos h]
  | cons file rest ih =>
    obtain ⟨r, t⟩ := file
    rw [insert]
    split
    · rw [get?_cons, if_pos h]
    · next heq =>
      rw [get?_cons, ← Path.sameAs_congr (Path.order_eq_iff.1 heq), if_pos h]
    · next hgt =>
      have hne : r.sameAs q = false := by
        rw [Path.sameAs_comm, ← Path.sameAs_congr h]
        exact Path.sameAs_of_order hgt (by decide)
      rw [get?_cons, if_neg (by simp [hne]), ih]

/-- Another path reads as before. -/
theorem get?_insert_of_not (h : p.sameAs q = false) : get? (insert p text m) q = get? m q := by
  induction m with
  | nil => rw [insert, get?_cons, if_neg (by simp [h])]
  | cons file rest ih =>
    obtain ⟨r, t⟩ := file
    rw [insert]
    split
    · rw [get?_cons, if_neg (by simp [h])]
    · next heq =>
      rw [get?_cons, get?_cons, ← Path.sameAs_congr (Path.order_eq_iff.1 heq), if_neg (by simp [h]),
        if_neg (by simp [h])]
    · rw [get?_cons, get?_cons, ih]

end FileMap

/-! ### The sources of a plan -/

/-- The roots that a plan looks below. -/
def scannedRoots (roots : List Path) : List Path := if roots.isEmpty then [⟨"."⟩] else roots

/-- The path is listed below a root; the root of the workspace has everything below it. -/
def LiesUnder (p root : Path) : Prop :=
  root.text = "" ∨ root.sameAs ⟨"."⟩ ∨ p.isBelow root

/-- A TypeScript file in memory that a plan looks at. -/
structure IsSource (files : FileMap) (roots : List Path) (p : Path) : Prop where
  mem : p ∈ files.map (·.1)
  extension : p.extension? = some "ts"
  /-- Nothing on the way to it is hidden or vendored. -/
  visible : ∀ c ∈ p.components, Tree.isLeftOut c = false
  under : ∃ root ∈ scannedRoots roots, LiesUnder p root

section
variable {files : FileMap} {behind : Entry} {directory root p : Path} {roots paths : List Path}

/-- From the root of the workspace everything in memory is listed that is not left out. -/
theorem list_memory (files : FileMap) :
    (Tree.memory files behind directory).list ⟨"."⟩ =
      .ok ((files.map (·.1)).filter fun p => !p.components.any Tree.isLeftOut) := by
  have heverything : Path.sameAs ⟨"."⟩ ⟨"."⟩ = true := Path.sameAs_refl _
  simp only [Tree.list, heverything, Bool.or_true, Bool.true_or, Bool.and_true]

theorem of_mem_list (h : (Tree.memory files behind directory).list root = .ok paths)
    (hp : p ∈ paths) : p ∈ files.map (·.1) ∧ (∀ c ∈ p.components, Tree.isLeftOut c = false) ∧
      LiesUnder p root := by
  cases h
  obtain ⟨hmem, hlisted⟩ := List.mem_filter.1 hp
  simp only [Bool.and_eq_true, Bool.not_eq_true', List.any_eq_false, Bool.not_eq_true,
    Bool.or_eq_true, beq_iff_eq] at hlisted
  obtain ⟨hvisible, hunder⟩ := hlisted
  exact ⟨hmem, hvisible, by rw [LiesUnder, ← or_assoc]; exact hunder⟩

/-- A plan visits every source once. -/
theorem distinct_of_sources {t : Tree} (h : sources t roots = .ok paths) : Distinct paths := by
  simp only [sources, bind_eq_ok, pure_eq_ok] at h
  obtain ⟨listed, -, rfl⟩ := h
  exact (pathSet_spec _).1.distinct

/-- The sources of a plan in memory, each once. -/
theorem sources_memory (h : sources (.memory files behind directory) roots = .ok paths) :
    Distinct paths ∧ ∀ p ∈ paths, IsSource files roots p := by
  refine ⟨distinct_of_sources h, fun p hp => ?_⟩
  simp only [sources, bind_eq_ok, pure_eq_ok] at h
  obtain ⟨listed, hlisted, rfl⟩ := h
  have hmem := (pathSet_spec (listed.flatten.filter fun p => p.extension? = some "ts")).2
  obtain ⟨hp, hextension⟩ := List.mem_filter.1 (hmem p hp)
  obtain ⟨paths, hpaths, hp⟩ := List.mem_flatten.1 hp
  obtain ⟨root, hroot, hlist⟩ := exists_of_mapM_eq_ok hlisted hpaths
  obtain ⟨hfile, hvisible, hunder⟩ := of_mem_list (mapError_eq_ok.1 hlist) hp
  exact ⟨hfile, of_decide_eq_true hextension, hvisible, root, hroot, hunder⟩

end
end RouterShift.Workspace
