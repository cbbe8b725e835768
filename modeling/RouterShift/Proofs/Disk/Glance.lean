import RouterShift.Proofs.Disk.Entry
import RouterShift.Proofs.Path.Components

/-! What stands where names lead, seen without what is below it: a directory, or a file with its
    content. Every operation on a tree changes one place of it in this sense: writing puts a file
    there, removing takes away what is at or below it, and making a directory where one is changes
    nothing. There are no links, so an absolute path that leads anywhere in a tree leads to the
    place that its components name lexically (`LeadsBy.eq_of_names?`). -/

namespace RouterShift.Entry

/-- What names lead to: a file with its content, or a directory. -/
def glance? (tree : Entry) (names : List String) : Option (Option Content) :=
  (tree.at? names).map fun
    | file content => some content
    | directory _ => none

/-- Two trees with the same files and directories. -/
def Alike (tree other : Entry) : Prop := ∀ names, other.glance? names = tree.glance? names

namespace Alike

variable {tree other third : Entry}

theorem refl (tree : Entry) : Alike tree tree := fun _ => rfl

theorem trans (h : Alike tree other) (h' : Alike other third) : Alike tree third :=
  fun names => (h' names).trans (h names)

end Alike

variable {tree after other : Entry} {names ns base : List String} {name : String}
  {content c : Content} {entries : List (String × Entry)}

theorem glance?_eq_file :
    tree.glance? names = some (some c) ↔ tree.at? names = some (file c) := by
  rw [glance?]
  constructor
  · intro h
    obtain ⟨e, he, hc⟩ := Option.map_eq_some_iff.1 h
    cases e with
    | directory es => cases hc
    | file c' =>
      cases hc
      exact he
  · intro h
    rw [h]
    rfl

theorem glance?_eq_directory :
    tree.glance? names = some none ↔ ∃ es, tree.at? names = some (directory es) := by
  rw [glance?]
  constructor
  · intro h
    obtain ⟨e, he, hc⟩ := Option.map_eq_some_iff.1 h
    cases e with
    | directory es => exact ⟨es, he⟩
    | file c' => cases hc
  · rintro ⟨es, h⟩
    rw [h]
    rfl

@[simp] theorem glance?_nil : (directory entries).glance? [] = some none := rfl

theorem glance?_cons : (directory entries).glance? (name :: ns) =
    (find? name entries).bind (·.glance? ns) := by
  rw [glance?, at?, Option.map_bind]
  rfl

@[simp] theorem glance?_file_cons : (file c).glance? (name :: ns) = none := rfl

/-- Above a place where something stands there are directories. -/
theorem glance?_append (h : tree.glance? (names ++ name :: ns) ≠ none) :
    tree.glance? names = some none := by
  induction names generalizing tree with
  | nil =>
    cases tree with
    | file c => exact absurd rfl h
    | directory es => rfl
  | cons first rest ih =>
    cases tree with
    | file c => exact absurd rfl h
    | directory es =>
      rw [List.cons_append, glance?_cons] at h
      rw [glance?_cons]
      cases hfind : find? first es with
      | none =>
        rw [hfind] at h
        exact absurd rfl h
      | some e =>
        rw [hfind] at h
        exact ih h

/-! ### Writing -/

/-- A write puts a file in one place. -/
theorem glance?_write? (h : tree.write? names content = some after) (ns : List String) :
    after.glance? ns = if ns = names then some (some content) else tree.glance? ns := by
  induction names generalizing tree after ns with
  | nil => cases tree <;> cases h
  | cons name rest ih =>
    cases rest with
    | nil =>
      obtain ⟨entries, rfl, hfree, rfl⟩ := write?_singleton_eq h
      cases ns with
      | nil => rfl
      | cons n ns =>
        rw [glance?_cons, glance?_cons]
        by_cases hn : n = name
        · subst hn
          rw [find?_put_self]
          cases ns with
          | nil => simp [glance?, at?]
          | cons m ms =>
            -- where there was a file or nothing, nothing is below
            rw [if_neg (by simp)]
            cases hfind : find? n entries with
            | none => rfl
            | some e =>
              cases e with
              | file c => rfl
              | directory es => exact absurd hfind (hfree es)
        · rw [find?_put_of_ne hn, if_neg (by simp [hn])]
    | cons next rest =>
      obtain ⟨entries, e, e', rfl, he, hwrite, rfl⟩ := write?_cons_cons_eq h
      cases ns with
      | nil => rfl
      | cons n ns =>
        rw [glance?_cons, glance?_cons]
        by_cases hn : n = name
        · subst hn
          rw [find?_put_self, he, Option.bind_some, Option.bind_some, ih hwrite]
          simp
        · rw [find?_put_of_ne hn, if_neg (by simp [hn])]

/-- A file can be written again. -/
theorem exists_write? (h : tree.glance? names = some (some c)) (hne : names ≠ [])
    (content : Content) : ∃ after, tree.write? names content = some after := by
  induction names generalizing tree with
  | nil => exact absurd rfl hne
  | cons name rest ih =>
    cases tree with
    | file c' => cases h
    | directory entries =>
      rw [glance?_cons] at h
      obtain ⟨e, he, hglance⟩ := Option.bind_eq_some_iff.1 h
      cases rest with
      | nil =>
        cases e with
        | directory es => cases hglance
        | file c' => exact ⟨_, by rw [write?, he]⟩
      | cons next rest =>
        obtain ⟨e', he'⟩ := ih hglance (List.cons_ne_nil _ _)
        refine ⟨directory (put name e' entries), ?_⟩
        rw [write?]
        · rw [he, Option.bind_some, he', Option.map_some]
        · simp

/-! ### Removing -/

theorem find?_filter (n name : String) (entries : List (String × Entry)) :
    find? n (entries.filter (·.1 != name)) = if n = name then none else find? n entries := by
  induction entries with
  | nil => simp [find?]
  | cons first rest ih =>
    obtain ⟨other, e⟩ := first
    by_cases hother : other = name
    · rw [List.filter_cons_of_neg (by simp [hother]), ih, find?_cons]
      split
      · rfl
      · next hn =>
        rw [if_neg]
        rintro rfl
        exact hn hother
    · rw [List.filter_cons_of_pos (by simp [hother]), find?_cons, find?_cons, ih]
      split
      · next hn => rw [if_neg (by rw [← hn]; exact hother)]
      · rfl

theorem remove_cons_cons (name next : String) (rest : List String)
    (entries : List (String × Entry)) :
    (directory entries).remove (name :: next :: rest) =
      match find? name entries with
      | some e => directory (put name (e.remove (next :: rest)) entries)
      | none => directory entries := by
  cases h : find? name entries with
  | none => simp [remove, h]
  | some e => simp [remove, h]

/-- What is removed is gone with all below it, and nothing else is. -/
theorem glance?_remove (hne : names ≠ []) (tree : Entry) (ns : List String) :
    (tree.remove names).glance? ns = if names <+: ns then none else tree.glance? ns := by
  induction names generalizing tree ns with
  | nil => exact absurd rfl hne
  | cons name rest ih =>
    cases tree with
    | file c => cases ns <;> simp [remove]
    | directory entries =>
      cases rest with
      | nil =>
        have hremove : (directory entries).remove [name] =
          directory (entries.filter (·.1 != name)) := rfl
        cases ns with
        | nil => simp [hremove]
        | cons n ns =>
          rw [hremove, glance?_cons, glance?_cons, find?_filter]
          by_cases hn : n = name
          · simp [hn]
          · simp [hn, Ne.symm hn]
      | cons next rest =>
        rw [remove_cons_cons]
        cases ns with
        | nil => cases find? name entries <;> simp
        | cons n ns =>
          cases hfind : find? name entries with
          | none =>
            by_cases hn : name = n
            · subst hn
              simp [glance?_cons, hfind]
            · simp [hn]
          | some e =>
            rw [glance?_cons, glance?_cons]
            by_cases hn : n = name
            · subst hn
              rw [find?_put_self, hfind, Option.bind_some, Option.bind_some,
                ih (List.cons_ne_nil _ _)]
              simp
            · rw [find?_put_of_ne hn]
              simp [Ne.symm hn]

/-! ### Making directories -/

/-- Making directories where there are some changes nothing. -/
theorem exists_makeDirectories? (h : tree.glance? names = some none) :
    ∃ made, tree.makeDirectories? names = some made ∧ Alike tree made := by
  induction names generalizing tree with
  | nil =>
    cases tree with
    | file c => cases h
    | directory entries => exact ⟨_, rfl, .refl _⟩
  | cons name rest ih =>
    cases tree with
    | file c => cases h
    | directory entries =>
      rw [glance?_cons] at h
      obtain ⟨e, he, hglance⟩ := Option.bind_eq_some_iff.1 h
      obtain ⟨e', hmade, halike⟩ := ih hglance
      refine ⟨directory (put name e' entries), by simp [makeDirectories?, he, hmade], fun ns => ?_⟩
      cases ns with
      | nil => rfl
      | cons n ns =>
        rw [glance?_cons, glance?_cons]
        by_cases hn : n = name
        · subst hn
          rw [find?_put_self, he, Option.bind_some, Option.bind_some, halike]
        · rw [find?_put_of_ne hn]

/-! ### Paths -/

theorem follow?_eq (tree : Entry) (names : List String) (c : Component) :
    follow? tree names c = match c with
      | .root => some []
      | .here => some names
      | .name s => some (s :: names)
      | .parent =>
        if tree.glance? names.reverse = some none then some (names.drop 1) else none := by
  cases c with
  | root | here | name => rfl
  | parent =>
    rw [follow?]
    split
    · next es hes => rw [if_pos (glance?_eq_directory.2 ⟨es, hes⟩)]
    · next hno =>
      rw [if_neg]
      intro h
      obtain ⟨es, hes⟩ := glance?_eq_directory.1 h
      exact hno es hes

section
variable (h : ∀ ns, other.glance? ns = some none ↔ tree.glance? ns = some none)

include h in
/-- The same directories let a path lead to the same place. -/
theorem follow?_congr : follow? other = follow? tree := by
  funext names c
  simp only [follow?_eq, h]

include h in
theorem names?_congr (base : List String) (p : Path) :
    other.names? base p = tree.names? base p := by
  rw [names?, names?, follow?_congr h]

end

/-- What is read from a path: the text of the file that stands where it leads. -/
theorem readText?_eq_some {p : Path} {text : String} :
    tree.readText? base p = some text ↔ meansDirectory p = false ∧ ∃ names content,
      tree.names? base p = some names ∧ tree.glance? names = some (some content) ∧
        content.text? = some text := by
  rw [readText?, locate?]
  constructor
  · intro h
    split at h
    · next content hlocate =>
      simp only [Option.bind_eq_bind, Option.bind_eq_some_iff] at hlocate
      obtain ⟨names, hnames, e, he, hif⟩ := hlocate
      split at hif
      · cases hif
      · next hmeans =>
        obtain rfl := Option.some.inj hif
        refine ⟨by simpa [isDirectory] using hmeans, names, content, hnames, ?_, h⟩
        exact glance?_eq_file.2 he
    · cases h
  · rintro ⟨hmeans, names, content, hnames, hglance, htext⟩
    simp [hnames, glance?_eq_file.1 hglance, hmeans, htext]

end RouterShift.Entry

namespace RouterShift.Path

variable {p : Path} {names : List String}

/-- An absolute path that leads lexically along names. -/
structure LeadsBy (p : Path) (names : List String) : Prop where
  absolute : p.components.head? = some .root
  evaluate_eq : evaluate p.components = .root :: names.map .name

theorem LeadsBy.components_eq (h : p.LeadsBy names) :
    ∃ cs, p.components = .root :: cs ∧ .root ∉ cs := by
  obtain ⟨cs, hcs⟩ := List.head?_eq_some_iff.1 h.absolute
  refine ⟨cs, hcs, fun hroot => ?_⟩
  obtain ⟨text, -, rfl⟩ := eq_slash_of_components hcs
  rcases of_mem_named hroot with h | ⟨s, h⟩ <;> cases h

/-- Where every step back leaves a directory, a path leads where it does lexically. -/
theorem foldl_evaluateStep {tree : Entry} {cs : List Component} {done last : List String}
    (hroot : .root ∉ cs) (h : cs.foldlM (Entry.follow? tree) done = some last) :
    cs.foldl evaluateStep (done.map .name ++ [.root]) = last.map .name ++ [.root] := by
  induction cs generalizing done with
  | nil =>
    cases h
    rfl
  | cons c cs ih =>
    rw [List.foldlM_cons] at h
    obtain ⟨next, hnext, hrest⟩ := Option.bind_eq_some_iff.1 h
    rw [List.foldl_cons, ← ih (fun hmem => hroot (List.mem_cons_of_mem c hmem)) hrest]
    -- a step back from the root stays there, lexically and in the tree
    rw [Entry.follow?_eq] at hnext
    cases c with
    | root => exact absurd List.mem_cons_self hroot
    | here =>
      cases hnext
      rfl
    | name s =>
      cases hnext
      rfl
    | parent =>
      dsimp only at hnext
      split at hnext
      · cases hnext
        cases done <;> rfl
      · cases hnext

/-- Where an absolute path leads in a tree, if anywhere. -/
theorem LeadsBy.eq_of_names? (h : p.LeadsBy names) {tree : Entry} {ns : List String}
    (hns : tree.names? [] p = some ns) : ns = names := by
  obtain ⟨cs, hcs, hroot⟩ := h.components_eq
  rw [Entry.names?, hcs] at hns
  obtain ⟨last, hlast, rfl⟩ := Option.map_eq_some_iff.1 hns
  have hfold : cs.foldl evaluateStep [.root] = last.map .name ++ [.root] :=
    foldl_evaluateStep hroot (show cs.foldlM (Entry.follow? tree) [] = some last from hlast)
  have hevaluate := h.evaluate_eq
  rw [hcs, evaluate] at hevaluate
  have hreverse : (last.map Component.name ++ [Component.root]).reverse =
      .root :: names.map .name := by
    rw [← hfold]
    exact hevaluate
  rw [List.reverse_append, ← List.map_reverse, List.reverse_singleton, List.singleton_append,
    List.cons.injEq] at hreverse
  exact (List.map_inj_right fun _ _ => Component.name.inj).1 hreverse.2

/-- A path leads to a directory. -/
def HasDirectory (p : Path) (tree : Entry) : Prop := ∃ es, tree.locate? [] p = some (.directory es)

theorem LeadsBy.glance?_of_hasDirectory (h : p.LeadsBy names) {tree : Entry}
    (hdirectory : p.HasDirectory tree) : tree.glance? names = some none := by
  obtain ⟨es, hes⟩ := hdirectory
  simp only [Entry.locate?, Option.bind_eq_bind, Option.bind_eq_some_iff] at hes
  obtain ⟨ns, hns, e, he, hif⟩ := hes
  obtain rfl := h.eq_of_names? hns
  split at hif
  · cases hif
  · obtain rfl := Option.some.inj hif
    exact Entry.glance?_eq_directory.2 ⟨es, he⟩

/-- A name joined to an absolute path leads one further. -/
theorem LeadsBy.join (h : p.LeadsBy names) {name : String} (hslash : name.toList.head? ≠ some '/')
    (hnamed : named name.toList = [.name name]) : (p.join name).LeadsBy (names ++ [name]) := by
  obtain ⟨cs, hcs, -⟩ := h.components_eq
  have hjoin : (p.join name).components = p.components ++ [.name name] := by
    rw [components_join hcs hslash, hnamed, hcs]
    rfl
  have hevaluate : evaluate (p.components ++ [.name name]) =
      evaluate p.components ++ [.name name] := by
    rw [evaluate, evaluate, List.foldl_append, ← List.reverse_cons]
    rfl
  exact ⟨by rw [hjoin, hcs]; rfl, by rw [hjoin, hevaluate, h.evaluate_eq, List.map_append]; rfl⟩

end RouterShift.Path
