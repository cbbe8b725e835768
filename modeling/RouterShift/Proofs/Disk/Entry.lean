import RouterShift.Proofs.Text.Utf8

/-! Reading what was written. A file that was written is found where the names lead, a directory
    stays one, and so a path leads where it led before: what is read from it is what was written to
    it (`readText?_writeAt?`). -/

namespace RouterShift.Entry

/-! ### Entries -/

@[simp] theorem find?_cons (name other : String) (e : Entry) (entries : List (String × Entry)) :
    find? name ((other, e) :: entries) = if other = name then some e else find? name entries := by
  by_cases h : other = name
  · simp [find?, h]
  · simp [find?, h]

theorem find?_put_self (name : String) (e : Entry) (entries : List (String × Entry)) :
    find? name (put name e entries) = some e := by
  induction entries with
  | nil => simp [put]
  | cons first rest ih =>
    obtain ⟨other, o⟩ := first
    rw [put]
    cases hcompare : compare name other with
    | lt => simp
    | eq => simp
    | gt =>
      have hne : other ≠ name := by
        rintro rfl
        have hself : compare other other = .eq := Std.ReflCmp.compare_self
        rw [hself] at hcompare
        cases hcompare
      simp [hne, ih]

theorem find?_put_of_ne {name other : String} (h : other ≠ name) (e : Entry)
    (entries : List (String × Entry)) :
    find? other (put name e entries) = find? other entries := by
  induction entries with
  | nil => simp [put, h.symm]
  | cons first rest ih =>
    obtain ⟨third, o⟩ := first
    rw [put]
    cases hcompare : compare name third with
    | lt => simp [h.symm]
    | eq =>
      obtain rfl : name = third := Std.LawfulEqCmp.eq_of_compare hcompare
      simp [h.symm]
    | gt => simp [ih]

/-! ### Writing -/

theorem write?_singleton_eq {tree after : Entry} {name : String} {content : Content}
    (h : tree.write? [name] content = some after) :
    ∃ entries, tree = directory entries ∧ (∀ es, find? name entries ≠ some (directory es)) ∧
      after = directory (put name (file content) entries) := by
  cases tree with
  | file c => cases h
  | directory entries =>
    refine ⟨entries, rfl, ?_⟩
    rw [write?] at h
    split at h
    · cases h
    · rename_i hfree
      cases h
      exact ⟨fun es hes => hfree es hes, rfl⟩

theorem write?_cons_cons_eq {tree after : Entry} {name next : String} {rest : List String}
    {content : Content} (h : tree.write? (name :: next :: rest) content = some after) :
    ∃ entries e e', tree = directory entries ∧ find? name entries = some e ∧
      e.write? (next :: rest) content = some e' ∧ after = directory (put name e' entries) := by
  cases tree with
  | file c => cases h
  | directory entries =>
    rw [write?] at h
    · obtain ⟨e', he', rfl⟩ := Option.map_eq_some_iff.1 h
      obtain ⟨e, he, hwrite⟩ := Option.bind_eq_some_iff.1 he'
      exact ⟨entries, e, e', rfl, he, hwrite, rfl⟩
    · simp

/-- What was written is there. -/
theorem at?_write? {tree after : Entry} {names : List String} {content : Content}
    (h : tree.write? names content = some after) : after.at? names = some (file content) := by
  induction names generalizing tree after with
  | nil => cases tree <;> cases h
  | cons name rest ih =>
    cases rest with
    | nil =>
      obtain ⟨entries, rfl, -, rfl⟩ := write?_singleton_eq h
      rw [at?, find?_put_self]
      rfl
    | cons next rest =>
      obtain ⟨entries, e, e', rfl, -, hwrite, rfl⟩ := write?_cons_cons_eq h
      rw [at?, find?_put_self]
      exact ih hwrite

/-- A directory stays one when a file is written. -/
theorem at?_directory_write? {tree after : Entry} {names ns : List String} {content : Content}
    {es : List (String × Entry)} (h : tree.write? names content = some after)
    (hns : tree.at? ns = some (directory es)) : ∃ es', after.at? ns = some (directory es') := by
  induction names generalizing tree after ns with
  | nil => cases tree <;> cases h
  | cons name rest ih =>
    cases rest with
    | nil =>
      obtain ⟨entries, rfl, hfree, rfl⟩ := write?_singleton_eq h
      cases ns with
      | nil => exact ⟨_, rfl⟩
      | cons n ns =>
        rw [at?] at hns ⊢
        by_cases hn : n = name
        · subst hn
          obtain ⟨e, he, hat⟩ := Option.bind_eq_some_iff.1 hns
          cases e with
          | directory es => exact absurd he (hfree es)
          | file c => cases ns <;> simp [at?] at hat
        · rw [find?_put_of_ne hn]
          exact ⟨es, hns⟩
    | cons next rest =>
      obtain ⟨entries, e, e', rfl, he, hwrite, rfl⟩ := write?_cons_cons_eq h
      cases ns with
      | nil => exact ⟨_, rfl⟩
      | cons n ns =>
        rw [at?] at hns ⊢
        by_cases hn : n = name
        · subst hn
          rw [he] at hns
          rw [find?_put_self]
          exact ih hwrite hns
        · rw [find?_put_of_ne hn]
          exact ⟨es, hns⟩

/-! ### Paths -/

theorem follow?_write? {tree after : Entry} {names : List String} {content : Content}
    (h : tree.write? names content = some after) {ns ns' : List String} {c : Component}
    (hc : tree.follow? ns c = some ns') : after.follow? ns c = some ns' := by
  cases c with
  | root | here | name => exact hc
  | parent =>
    rw [follow?] at hc ⊢
    split at hc
    · rename_i es hes
      obtain ⟨es', hes'⟩ := at?_directory_write? h hes
      rw [hes']
      exact hc
    · cases hc

/-- A path leads where it led before the write. -/
theorem names?_write? {tree after : Entry} {names base : List String} {content : Content}
    (h : tree.write? names content = some after) {p : Path} {ns : List String}
    (hns : tree.names? base p = some ns) : after.names? base p = some ns := by
  have hfold (cs : List Component) (first last : List String)
      (hcs : cs.foldlM (follow? tree) first = some last) :
      cs.foldlM (follow? after) first = some last := by
    induction cs generalizing first with
    | nil => exact hcs
    | cons c cs ih =>
      rw [List.foldlM_cons] at hcs ⊢
      obtain ⟨next, hnext, hrest⟩ := Option.bind_eq_some_iff.1 hcs
      exact Option.bind_eq_some_iff.2 ⟨next, follow?_write? h hnext, ih next hrest⟩
  rw [names?] at hns ⊢
  obtain ⟨last, hlast, rfl⟩ := Option.map_eq_some_iff.1 hns
  rw [hfold _ _ _ hlast]
  rfl

/-- What was written to a path is read from it. -/
theorem readText?_writeAt? {tree after : Entry} {base : List String} {p : Path} {text : String}
    (h : tree.writeAt? base p (.ofString text) = some after) :
    after.readText? base p = some text := by
  rw [writeAt?] at h
  split at h
  · cases h
  · rename_i hfile
    obtain ⟨names, hnames, hwrite⟩ := Option.bind_eq_some_iff.1 h
    have hlocate : after.locate? base p = some (file (.ofString text)) := by
      rw [locate?, names?_write? hwrite hnames]
      simp [at?_write? hwrite, hfile]
    rw [readText?, hlocate]
    exact Text.ofUtf8?_toUTF8 text

end RouterShift.Entry
