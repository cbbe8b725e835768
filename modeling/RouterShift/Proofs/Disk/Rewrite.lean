import RouterShift.Proofs.Disk.Glance
import RouterShift.Proofs.Path.Components

/-! Writing to a file that can be read. Along the way to it there are directories, so making them
    changes nothing, and the file itself can be written; nothing else in the tree is changed, and
    whatever else could be read can be read still (`exists_rewrite`). -/

namespace RouterShift.Entry

variable {tree : Entry} {cs : List Component} {first last : List String} {p : Path}

/-! ### Directories on the way -/

/-- A name leads out of a directory to what is there, and so does `..`. -/
theorem glance?_of_step {c : Component} {next : List String} (hc : c = .parent ∨ ∃ s, c = .name s)
    (h : follow? tree first c = some next) (hnext : tree.glance? next.reverse ≠ none) :
    tree.glance? first.reverse = some none := by
  rw [follow?_eq] at h
  rcases hc with rfl | ⟨s, rfl⟩
  · dsimp only at h
    split at h
    · assumption
    · cases h
  · cases h
    rw [List.reverse_cons] at hnext
    exact glance?_append hnext

/-- A path without a root in it that ends at a directory starts at one. -/
theorem glance?_of_follow (hroot : .root ∉ cs) (h : cs.foldlM (follow? tree) first = some last)
    (hlast : tree.glance? last.reverse = some none) : tree.glance? first.reverse = some none := by
  induction cs generalizing first with
  | nil =>
    cases h
    exact hlast
  | cons c cs ih =>
    rw [List.foldlM_cons] at h
    obtain ⟨next, hnext, hrest⟩ := Option.bind_eq_some_iff.1 h
    have hnextDirectory := ih (fun hmem => hroot (List.mem_cons_of_mem c hmem)) hrest
    cases c with
    | root => exact absurd List.mem_cons_self hroot
    | here =>
      cases hnext
      exact hnextDirectory
    | name s => exact glance?_of_step (.inr ⟨s, rfl⟩) hnext (by simp [hnextDirectory])
    | parent => exact glance?_of_step (.inl rfl) hnext (by simp [hnextDirectory])

/-- On the way to a directory there is nothing to make. -/
theorem exists_foldlM_makeStep? (hroot : .root ∉ cs)
    (h : cs.foldlM (follow? tree) first = some last)
    (hlast : tree.glance? last.reverse = some none) :
    ∃ made, cs.foldlM makeStep? (tree, first) = some (made, last) ∧ Alike tree made := by
  induction cs generalizing first tree with
  | nil =>
    cases h
    exact ⟨tree, rfl, .refl tree⟩
  | cons c cs ih =>
    have hroot' : .root ∉ cs := fun hmem => hroot (List.mem_cons_of_mem c hmem)
    rw [List.foldlM_cons] at h ⊢
    obtain ⟨next, hnext, hrest⟩ := Option.bind_eq_some_iff.1 h
    have hnextDirectory := glance?_of_follow hroot' hrest hlast
    rw [follow?_eq] at hnext
    cases c with
    | root => exact absurd List.mem_cons_self hroot
    | here =>
      cases hnext
      exact ih hroot' hrest hlast
    | name s =>
      cases hnext
      obtain ⟨made, hmade, halike⟩ := exists_makeDirectories? hnextDirectory
      have hfollow : follow? made = follow? tree := follow?_congr fun ns => by rw [halike]
      obtain ⟨all, hall, halike'⟩ := ih hroot' (hfollow ▸ hrest) (by rw [halike]; exact hlast)
      refine ⟨all, ?_, halike.trans halike'⟩
      simp only [makeStep?, hmade, Option.map_some]
      exact hall
    | parent =>
      dsimp only at hnext
      split at hnext
      · cases hnext
        exact ih hroot' hrest hlast
      · cases hnext

theorem exists_makePath? (hp : p.components = .root :: cs) (hroot : .root ∉ cs)
    {names : List String} (hnames : tree.names? [] p = some names)
    (hdirectory : tree.glance? names = some none) :
    ∃ made, tree.makePath? [] p = some made ∧ Alike tree made := by
  rw [names?, hp] at hnames
  obtain ⟨last, hlast, rfl⟩ := Option.map_eq_some_iff.1 hnames
  have hfold : cs.foldlM (follow? tree) [] = some last := hlast
  obtain ⟨made, hmade, halike⟩ := exists_foldlM_makeStep? hroot hfold hdirectory
  refine ⟨made, ?_, halike⟩
  have hsteps : (Component.root :: cs).foldlM makeStep? (tree, []) = some (made, last) := hmade
  rw [makePath?, hp, List.reverse_nil, hsteps]
  rfl

/-! ### Files that can be read -/

/-- The root means a directory. -/
theorem meansDirectory_root (hp : p.components = [.root]) : meansDirectory p = true := by
  obtain ⟨text, htext, hnamed⟩ := Path.eq_slash_of_components hp
  rw [meansDirectory, htext]
  rcases Path.end_of_named_eq_nil hnamed.symm with ⟨before, h⟩ | ⟨before, h⟩
  · rw [← h]
    simp
  · rw [← h]
    simp

/-- The parent of a file is a directory. -/
theorem glance?_parent {c : Component} {init : List Component} {content : Content}
    (hc : c = .parent ∨ ∃ s, c = .name s)
    (h : (init ++ [c]).foldlM (follow? tree) [] = some last)
    (hlast : tree.glance? last.reverse = some (some content)) :
    ∃ names, init.foldlM (follow? tree) [] = some names ∧
      tree.glance? names.reverse = some none := by
  rw [List.foldlM_append] at h
  obtain ⟨names, hnames, hstep⟩ := Option.bind_eq_some_iff.1 h
  have hfollow : follow? tree names c = some last := by simpa using hstep
  exact ⟨names, hnames, glance?_of_step hc hfollow (by simp [hlast])⟩

/-- The directories on the way to a file are there. -/
theorem exists_makeParent? (hp : p.components = .root :: cs) (hmeans : meansDirectory p = false)
    {names : List String} {content : Content} (hnames : tree.names? [] p = some names)
    (hfile : tree.glance? names = some (some content)) :
    names ≠ [] ∧ ∃ made, p.parent?.elim (some tree) (tree.makePath? []) = some made ∧
      Alike tree made := by
  obtain ⟨text, -, hcs⟩ := Path.eq_slash_of_components hp
  rcases List.eq_nil_or_concat cs with rfl | ⟨init, c, rfl⟩
  · rw [meansDirectory_root hp] at hmeans
    cases hmeans
  rw [List.concat_eq_append] at hp hcs
  have hmem (d : Component) (hd : d ∈ init ++ [c]) : d = .parent ∨ ∃ s, d = .name s :=
    Path.of_mem_named (hcs ▸ hd)
  have hroot : .root ∉ init := by
    intro hd
    rcases hmem .root (List.mem_append_left _ hd) with h | ⟨s, h⟩ <;> cases h
  rw [names?, hp] at hnames
  obtain ⟨last, hlast, rfl⟩ := Option.map_eq_some_iff.1 hnames
  obtain ⟨above, habove, hdirectory⟩ :=
    glance?_parent (hmem c (by simp)) (show (init ++ [c]).foldlM _ _ = some last from hlast) hfile
  constructor
  · -- a tree that is a file has no directory in it
    intro hnil
    rw [hnil] at hfile
    cases tree with
    | directory es => cases hfile
    | file c' => cases hnames' : above.reverse <;> simp [hnames', glance?, at?] at hdirectory
  · cases hparent : p.parent? with
    | none => exact ⟨tree, rfl, .refl tree⟩
    | some parent =>
      obtain ⟨-, hcomponents⟩ := Path.components_parent? hp hparent
      rw [List.dropLast_concat] at hcomponents
      refine exists_makePath? hcomponents hroot ?_ hdirectory
      rw [names?, hcomponents]
      exact Option.map_eq_some_iff.2 ⟨above, habove, rfl⟩

/-- A file that can be read can be written with all directories on the way to it, and it is all
    that is changed. -/
theorem exists_rewrite (hp : p.components = .root :: cs) {text : String}
    (hread : tree.readText? [] p = some text) (content : Content) :
    ∃ made written names before, p.parent?.elim (some tree) (tree.makePath? []) = some made ∧
      made.writeAt? [] p content = some written ∧ tree.glance? names = some (some before) ∧
      ∀ ns, written.glance? ns = if ns = names then some (some content) else tree.glance? ns := by
  obtain ⟨hmeans, names, before, hnames, hfile, -⟩ := readText?_eq_some.1 hread
  obtain ⟨hne, made, hmade, halike⟩ := exists_makeParent? hp hmeans hnames hfile
  have hmadeFile : made.glance? names = some (some before) := by rw [halike, hfile]
  have hpath : made.names? [] p = tree.names? [] p := names?_congr (fun ns => by rw [halike]) [] p
  obtain ⟨written, hwritten⟩ := exists_write? hmadeFile hne content
  refine ⟨made, written, names, before, hmade, ?_, hfile, fun ns => ?_⟩
  · rw [writeAt?, hmeans, hpath, hnames]
    exact hwritten
  · rw [glance?_write? hwritten, halike]

/-- What could be read before a file got another text can be read afterwards. -/
theorem exists_readText? {written : Entry} {names : List String} {before : Content} {text : String}
    (hfile : tree.glance? names = some (some before))
    (hwritten : ∀ ns, written.glance? ns =
      if ns = names then some (some (.ofString text)) else tree.glance? ns)
    {q : Path} {old : String} (hread : tree.readText? [] q = some old) :
    ∃ new, written.readText? [] q = some new := by
  obtain ⟨hmeans, ns, content, hns, hglance, htext⟩ := readText?_eq_some.1 hread
  have hdirectories (ns : List String) :
      written.glance? ns = some none ↔ tree.glance? ns = some none := by
    rw [hwritten]
    split
    · next h => simp [h, hfile]
    · rfl
  by_cases h : ns = names
  · refine ⟨text, readText?_eq_some.2 ⟨hmeans, ns, .ofString text, ?_, ?_, Text.ofUtf8?_toUTF8 text⟩⟩
    · rw [names?_congr hdirectories, hns]
    · rw [hwritten, if_pos h]
  · refine ⟨old, readText?_eq_some.2 ⟨hmeans, ns, content, ?_, ?_, htext⟩⟩
    · rw [names?_congr hdirectories, hns]
    · rw [hwritten, if_neg h, hglance]

end RouterShift.Entry
