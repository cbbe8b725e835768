import RouterShift.Package.Manifest
import RouterShift.Proofs.Json.Reread

/-! Renaming a dependency. A manifest that was read is still one after it, so it can be written and
    read again; and the old name is in none of its sections then, which makes a second renaming
    change nothing (`renameDependency_again`). -/

namespace RouterShift.Manifest

open Json (Fields Value)

variable {m : Manifest} {fields entries : Fields} {old new version sectionName : String} {depth : Nat}

/-! ### What stays sound -/

theorem sound_insert {value : Value} (h : (Value.object fields).Sound depth)
    (hvalue : value.Sound (depth - 1)) (key : String) :
    (Value.object (fields.insert key value)).Sound depth := by
  obtain ⟨hkeys, hdepth, hfields⟩ := Value.sound_object.1 h
  refine Value.sound_object.2 ⟨Fields.nodup_keys_insert hkeys, hdepth, fun p hp => ?_⟩
  rcases Fields.mem_insert hp with rfl | hp
  · exact hvalue
  · exact hfields p hp

theorem sound_erase (h : (Value.object fields).Sound depth) (key : String) :
    (Value.object (fields.erase key)).Sound depth := by
  obtain ⟨hkeys, hdepth, hfields⟩ := Value.sound_object.1 h
  have hsublist := Fields.erase_sublist fields key
  exact Value.sound_object.2 ⟨hkeys.sublist (hsublist.map _), hdepth,
    fun p hp => hfields p (hsublist.subset hp)⟩

/-- The entries of a section with one of them renamed. -/
def renameEntries (old new version : String) (entries : Fields) : Fields × Nat :=
  if (entries.get? old).isSome then ((entries.erase old).insert new (.string version), 1)
  else (entries, 0)

theorem sound_renameEntries (h : (Value.object entries).Sound depth) :
    (Value.object (renameEntries old new version entries).1).Sound depth := by
  rw [renameEntries]
  split
  · exact sound_insert (sound_erase h old) (Value.sound_string _ _) new
  · exact h

theorem sound_renameSection (h : (Value.object fields).Sound depth) (sectionName : String) :
    (Value.object (updateSection fields sectionName (renameEntries old new version)).1).Sound
      depth := by
  rw [updateSection]
  split
  · next entries hentries =>
    have hsection := (Value.sound_object.1 h).2.2 _ (Fields.mem_of_get? hentries)
    exact sound_insert h (sound_renameEntries hsection) sectionName
  · exact h

theorem sound_renameDependency (h : (Value.object m.fields).Sound depth) :
    (Value.object (m.renameDependency old new version).1.fields).Sound depth :=
  sound_renameSection (sound_renameSection h "dependencies") "devDependencies"

/-! ### What is renamed is gone -/

/-- A section has no entry of a name, if it is there at all. -/
def LacksIn (fields : Fields) (sectionName name : String) : Prop :=
  ∀ entries : Fields, fields.get? sectionName = some (.object entries) → entries.get? name = none

/-- No section that may be changed has an entry of the name. -/
def Lacks (m : Manifest) (name : String) : Prop :=
  ∀ sectionName ∈ patchableSections, LacksIn m.fields sectionName name

theorem get?_renameEntries (h : entries.keys.Nodup) (hne : old ≠ new) :
    Fields.get? (renameEntries old new version entries).1 old = none := by
  rw [renameEntries]
  split
  · rw [Fields.get?_insert_of_ne hne]
    exact Fields.get?_eq_none (Fields.notMem_keys_erase h old)
  · next habsent => exact Option.not_isSome_iff_eq_none.1 habsent

theorem lacksIn_renameSection (h : (Value.object fields).Sound depth) (hne : old ≠ new) :
    LacksIn (updateSection fields sectionName (renameEntries old new version)).1 sectionName old := by
  intro entries hentries
  rw [updateSection] at hentries
  split at hentries
  · next before hbefore =>
    rw [Fields.get?_insert_self] at hentries
    cases hentries
    have hsection := (Value.sound_object.1 h).2.2 _ (Fields.mem_of_get? hbefore)
    exact get?_renameEntries (Value.sound_object.1 hsection).1 hne
  · next hnone => exact absurd hentries (hnone entries)

section
variable {change : Fields → Fields × Nat} {other name : String}

/-- Another section is what it was. -/
theorem get?_updateSection_of_ne (h : other ≠ sectionName) :
    Fields.get? (updateSection fields sectionName change).1 other = fields.get? other := by
  rw [updateSection]
  split
  · exact Fields.get?_insert_of_ne h _ _
  · rfl

theorem lacksIn_updateSection_of_ne (h : other ≠ sectionName) :
    LacksIn (updateSection fields sectionName change).1 other name ↔ LacksIn fields other name := by
  rw [LacksIn, get?_updateSection_of_ne h]
  rfl

end

theorem lacks_renameDependency (hsound : (Value.object m.fields).Sound depth) (hne : old ≠ new) :
    (m.renameDependency old new version).1.Lacks old := by
  intro sectionName hname
  rcases List.mem_cons.1 hname with rfl | hname
  · exact (lacksIn_updateSection_of_ne (by decide)).2 (lacksIn_renameSection hsound hne)
  · obtain rfl := List.mem_singleton.1 hname
    exact lacksIn_renameSection (sound_renameSection hsound "dependencies") hne

/-- Nothing is counted where there is nothing to rename. -/
theorem updateSection_of_lacksIn (h : LacksIn fields sectionName old) :
    (updateSection fields sectionName (renameEntries old new version)).2 = 0 := by
  rw [updateSection]
  split
  · next entries hentries => rw [renameEntries, h entries hentries, if_neg (by simp)]
  · rfl

theorem renameDependency_of_lacks (h : m.Lacks old) :
    (m.renameDependency old new version).2 = false := by
  have hfirst : (updateSection m.fields "dependencies" (renameEntries old new version)).2 = 0 :=
    updateSection_of_lacksIn (h "dependencies" List.mem_cons_self)
  have hsecond : (updateSection (updateSection m.fields "dependencies"
      (renameEntries old new version)).1 "devDependencies" (renameEntries old new version)).2 = 0 := by
    refine updateSection_of_lacksIn ((lacksIn_updateSection_of_ne (by decide)).2 ?_)
    exact h "devDependencies" (by decide)
  change decide (0 + (updateSection m.fields "dependencies" (renameEntries old new version)).2 +
    (updateSection (updateSection m.fields "dependencies"
      (renameEntries old new version)).1 "devDependencies" (renameEntries old new version)).2 > 0) = false
  rw [hfirst, hsecond]
  rfl

/-! ### Written and read again -/

/-- The manifest with other numbers in the places of its own. -/
def mapNumbers (f : Json.Number → Json.Number) (m : Manifest) : Manifest :=
  ⟨m.fields.map fun p => (p.1, p.2.mapNumbers f)⟩

theorem lacks_mapNumbers {f : Json.Number → Json.Number} {name : String} (h : m.Lacks name) :
    (m.mapNumbers f).Lacks name := by
  intro sectionName hname entries hentries
  rw [mapNumbers, Fields.get?_mapNumbers, Option.map_eq_some_iff] at hentries
  obtain ⟨v, hv, heq⟩ := hentries
  cases v with
  | object inner =>
    rw [Value.mapNumbers_object] at heq
    cases heq
    rw [Fields.get?_mapNumbers, h sectionName hname inner hv]
    rfl
  | array items => simp at heq
  | null | bool | number | string | illFormed => cases heq

/-- What is known of a manifest that was read. -/
theorem sound_of_parse {path : Path} {text : String} (h : parse path text = .ok m) :
    (Value.object m.fields).Sound Value.depthLimit := by
  rw [parse] at h
  split at h
  · cases h
  · next hread =>
    cases h
    exact Json.sound_of_parse? hread
  · cases h

/-- A manifest that was read can be written and read again, whatever numbers are in it. -/
theorem exists_parse_render (h : (Value.object m.fields).Sound Value.depthLimit) (path : Path) :
    ∃ f, parse path m.render = .ok (m.mapNumbers f) := by
  have hblanks : ∀ c ∈ ['\n'], Json.isBlank c = true := by simp [Json.isBlank]
  obtain ⟨f, hread⟩ := Json.exists_parse?_pretty h hblanks
    (by intro c hc; cases hc; exact .inl rfl)
  rw [Value.mapNumbers_object] at hread
  refine ⟨f, ?_⟩
  rw [parse, render, hread]
  rfl

/-- A manifest in which a dependency was renamed, written and read again, has no dependency of the
    old name. -/
theorem renameDependency_again {path path' : Path} {text : String} (h : parse path text = .ok m)
    (hne : old ≠ new) : ∃ m', parse path' (m.renameDependency old new version).1.render = .ok m' ∧
      (m'.renameDependency old new version).2 = false := by
  have hsound := sound_of_parse h
  have hsound' : (Value.object (m.renameDependency old new version).1.fields).Sound
      Value.depthLimit := sound_renameDependency hsound
  obtain ⟨f, hf⟩ := exists_parse_render hsound' path'
  exact ⟨_, hf, renameDependency_of_lacks (lacks_mapNumbers (lacks_renameDependency hsound hne))⟩

end RouterShift.Manifest
