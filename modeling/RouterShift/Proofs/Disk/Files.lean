import RouterShift.Proofs.Disk.Entry
import RouterShift.Proofs.Path.Order

/-! The files of a directory tree. Where the entries of every directory stand in strict order by
    name, as every operation on a tree leaves them, a file is listed by just the names that lead to
    it (`mem_files_iff`), and the files come in the order of paths (`ordered_files`). -/

namespace RouterShift.Entry

variable {e tree after : Entry} {entries : List (String × Entry)} {name : String}
  {names ns : List String} {content : Content}

/-! ### Sorted trees -/

mutual
/-- The entries of every directory stand in strict order by name. -/
def Sorted : Entry → Prop
  | file _ => True
  | directory entries => SortedAmong entries

def SortedAmong : List (String × Entry) → Prop
  | [] => True
  | (name, e) :: rest =>
    Sorted e ∧ (∀ other ∈ rest, compare name other.1 = .lt) ∧ SortedAmong rest
end

@[simp] theorem sorted_file : (file content).Sorted := by rw [Sorted]; trivial

@[simp] theorem sorted_directory : (directory entries).Sorted ↔ SortedAmong entries := by
  rw [Sorted]

@[simp] theorem sortedAmong_nil : SortedAmong [] := by rw [SortedAmong]; trivial

@[simp] theorem sortedAmong_cons : SortedAmong ((name, e) :: entries) ↔
    e.Sorted ∧ (∀ other ∈ entries, compare name other.1 = .lt) ∧ SortedAmong entries := by
  rw [SortedAmong]

theorem SortedAmong.sorted (h : SortedAmong entries) (hmem : (name, e) ∈ entries) : e.Sorted := by
  induction entries with
  | nil => cases hmem
  | cons first rest ih =>
    obtain ⟨hfirst, -, hrest⟩ := sortedAmong_cons.1 h
    rcases List.mem_cons.1 hmem with rfl | hmem
    · exact hfirst
    · exact ih hrest hmem

theorem mem_of_find? (h : find? name entries = some e) : (name, e) ∈ entries := by
  induction entries with
  | nil => cases h
  | cons first rest ih =>
    obtain ⟨other, o⟩ := first
    rw [find?_cons] at h
    split at h
    · next heq =>
      cases h
      rw [heq]
      exact List.mem_cons_self
    · exact List.mem_cons_of_mem _ (ih h)

/-- In a sorted directory a name stands once. -/
theorem SortedAmong.find?_of_mem (h : SortedAmong entries) (hmem : (name, e) ∈ entries) :
    find? name entries = some e := by
  induction entries with
  | nil => cases hmem
  | cons first rest ih =>
    obtain ⟨other, o⟩ := first
    obtain ⟨-, hlt, hrest⟩ := sortedAmong_cons.1 h
    rw [find?_cons]
    rcases List.mem_cons.1 hmem with heq | hmem
    · cases heq
      rw [if_pos rfl]
    · have hne : other ≠ name := by
        rintro rfl
        have hself : compare other other = .eq := Std.ReflCmp.compare_self
        rw [hlt _ hmem] at hself
        cases hself
      rw [if_neg hne, ih hrest hmem]

/-! #### Operations -/

theorem of_mem_put {other : String × Entry} (h : other ∈ put name e entries) :
    other = (name, e) ∨ other ∈ entries := by
  induction entries with
  | nil => exact .inl (List.mem_singleton.1 h)
  | cons first rest ih =>
    obtain ⟨third, o⟩ := first
    rw [put] at h
    split at h
    · exact List.mem_cons.1 h
    · exact (List.mem_cons.1 h).imp_right (List.mem_cons_of_mem _)
    · rcases List.mem_cons.1 h with rfl | h
      · exact .inr List.mem_cons_self
      · exact (ih h).imp_right (List.mem_cons_of_mem _)

theorem SortedAmong.put (h : SortedAmong entries) (he : e.Sorted) (name : String) :
    SortedAmong (put name e entries) := by
  induction entries with
  | nil => simpa [Entry.put] using he
  | cons first rest ih =>
    obtain ⟨other, o⟩ := first
    obtain ⟨ho, hlt, hrest⟩ := sortedAmong_cons.1 h
    rw [Entry.put]
    split
    · next hname =>
      refine sortedAmong_cons.2 ⟨he, fun x hx => ?_, h⟩
      rcases List.mem_cons.1 hx with rfl | hx
      · exact hname
      · exact Std.TransCmp.lt_trans hname (hlt x hx)
    · next hname =>
      obtain rfl : name = other := Std.LawfulEqCmp.eq_of_compare hname
      exact sortedAmong_cons.2 ⟨he, hlt, hrest⟩
    · next hname =>
      refine sortedAmong_cons.2 ⟨ho, fun x hx => ?_, ih hrest⟩
      rcases of_mem_put hx with rfl | hx
      · exact Std.OrientedCmp.gt_iff_lt.1 hname
      · exact hlt x hx

/-- A written file leaves a sorted tree sorted. -/
theorem Sorted.write? (h : tree.Sorted) (hwrite : tree.write? names content = some after) :
    after.Sorted := by
  induction names generalizing tree after with
  | nil => cases tree <;> cases hwrite
  | cons name rest ih =>
    cases rest with
    | nil =>
      obtain ⟨entries, rfl, -, rfl⟩ := write?_singleton_eq hwrite
      exact sorted_directory.2 ((sorted_directory.1 h).put sorted_file name)
    | cons next rest =>
      obtain ⟨entries, e, made, rfl, hfind, hmade, rfl⟩ := write?_cons_cons_eq hwrite
      have he := (sorted_directory.1 h).sorted (mem_of_find? hfind)
      exact sorted_directory.2 ((sorted_directory.1 h).put (ih he hmade) name)

/-- So do directories that are made. -/
theorem Sorted.makeDirectories? (h : tree.Sorted)
    (hmake : tree.makeDirectories? names = some after) : after.Sorted := by
  induction names generalizing tree after with
  | nil =>
    cases tree with
    | file c => cases hmake
    | directory entries =>
      cases hmake
      exact h
  | cons name rest ih =>
    cases tree with
    | file c => cases hmake
    | directory entries =>
      rw [Entry.makeDirectories?] at hmake
      obtain ⟨made, hmade, rfl⟩ := Option.map_eq_some_iff.1 hmake
      refine sorted_directory.2 ((sorted_directory.1 h).put (ih ?_ hmade) name)
      cases hfind : find? name entries with
      | none => simp
      | some e => exact (sorted_directory.1 h).sorted (mem_of_find? hfind)

/-! ### Files and the names that lead to them -/

theorem mem_filesAmong_iff : (names, content) ∈ filesAmong entries ↔
    ∃ name e ns, (name, e) ∈ entries ∧ (ns, content) ∈ e.files ∧ names = name :: ns := by
  induction entries with
  | nil => simp [filesAmong]
  | cons first rest ih =>
    obtain ⟨other, o⟩ := first
    rw [filesAmong, List.mem_append, ih]
    constructor
    · rintro (h | ⟨name, e, ns, hmem, hns, rfl⟩)
      · obtain ⟨⟨ns, c⟩, hns, heq⟩ := List.mem_map.1 h
        cases heq
        exact ⟨other, o, ns, List.mem_cons_self, hns, rfl⟩
      · exact ⟨name, e, ns, List.mem_cons_of_mem _ hmem, hns, rfl⟩
    · rintro ⟨name, e, ns, hmem, hns, rfl⟩
      rcases List.mem_cons.1 hmem with heq | hmem
      · cases heq
        exact .inl (List.mem_map.2 ⟨(ns, content), hns, rfl⟩)
      · exact .inr ⟨name, e, ns, hmem, hns, rfl⟩

/-- A file that names lead to is listed. -/
theorem mem_files_of_at? (h : tree.at? names = some (file content)) :
    (names, content) ∈ tree.files := by
  induction names generalizing tree with
  | nil =>
    rw [at?] at h
    cases h
    simp [files]
  | cons name rest ih =>
    cases tree with
    | file c => cases h
    | directory entries =>
      rw [at?] at h
      obtain ⟨e, hfind, he⟩ := Option.bind_eq_some_iff.1 h
      rw [files]
      exact mem_filesAmong_iff.2 ⟨name, e, rest, mem_of_find? hfind, ih he, rfl⟩

/-- In a sorted tree the files listed are those that names lead to. -/
theorem mem_files_iff (h : tree.Sorted) :
    (names, content) ∈ tree.files ↔ tree.at? names = some (file content) := by
  refine ⟨fun hmem => ?_, mem_files_of_at?⟩
  induction names generalizing tree with
  | nil =>
    cases tree with
    | file c =>
      rw [files, List.mem_singleton] at hmem
      cases hmem
      rfl
    | directory entries =>
      rw [files, mem_filesAmong_iff] at hmem
      obtain ⟨_, _, _, -, -, hnil⟩ := hmem
      cases hnil
  | cons name rest ih =>
    cases tree with
    | file c =>
      rw [files, List.mem_singleton] at hmem
      cases hmem
    | directory entries =>
      rw [files, mem_filesAmong_iff] at hmem
      obtain ⟨_, e, _, hentry, hns, heq⟩ := hmem
      cases heq
      have hsorted := sorted_directory.1 h
      rw [at?, hsorted.find?_of_mem hentry, Option.bind_some]
      exact ih (hsorted.sorted hentry) hns

/-! ### The order of the files -/

/-- Names in the order of the paths that they make. -/
def orderNames (ns ms : List String) : Ordering :=
  Path.orderComponents (ns.map .name) (ms.map .name)

theorem orderNames_cons (n m : String) (ns ms : List String) :
    orderNames (n :: ns) (m :: ms) = (compare n m).then (orderNames ns ms) := rfl

mutual
/-- The files of a sorted tree come in the order of paths, whatever their names are made of. -/
theorem ordered_files : ∀ {tree : Entry}, tree.Sorted →
    (tree.files.map (·.1)).Pairwise fun ns ms => orderNames ns ms = .lt
  | file c, _ => by
    rw [files]
    exact List.pairwise_singleton _ _
  | directory entries, h => by
    rw [files]
    exact ordered_filesAmong (sorted_directory.1 h)

theorem ordered_filesAmong : ∀ {entries : List (String × Entry)}, SortedAmong entries →
    ((filesAmong entries).map (·.1)).Pairwise fun ns ms => orderNames ns ms = .lt
  | [], _ => by
    rw [filesAmong]
    exact .nil
  | (name, e) :: rest, h => by
    obtain ⟨he, hlt, hrest⟩ := sortedAmong_cons.1 h
    have hfirst : (e.files.map (·.1)).Pairwise fun ns ms =>
        orderNames (name :: ns) (name :: ms) = .lt := by
      refine (ordered_files he).imp fun hns => ?_
      have hself : compare name name = .eq := Std.ReflCmp.compare_self
      rw [orderNames_cons, hself]
      exact hns
    rw [filesAmong, List.map_append, List.map_map, List.pairwise_append]
    refine ⟨?_, ordered_filesAmong hrest, ?_⟩
    · rw [List.pairwise_map] at hfirst ⊢
      exact hfirst
    · -- the first name decides between files of two entries
      intro ns hns ms hms
      obtain ⟨f, -, rfl⟩ := List.mem_map.1 hns
      obtain ⟨⟨ms, c⟩, hlisted, rfl⟩ := List.mem_map.1 hms
      obtain ⟨other, o, tail, hother, -, rfl⟩ := mem_filesAmong_iff.1 hlisted
      have hname : compare name other = .lt := hlt _ hother
      show orderNames (name :: f.1) (other :: tail) = .lt
      rw [orderNames_cons, hname]
      rfl
end

end RouterShift.Entry
