import RouterShift.Proofs.Package.Manifest
import RouterShift.Proofs.Package.Renamed

/-! The sections of a manifest through a history of changes. A section without repeated names is a
    table in an order of its own: what is set is set where it stands, what is renamed leaves its
    place to the others and takes that of the new name or the last one. Nothing else in the manifest
    takes part, and this holds of each change whatever changes came before it
    (`history_conduct`). -/

namespace RouterShift

namespace Json.Fields

variable {fields : Fields} {key : String} {value : Value}

/-- The fields with a value put under a key that they have. -/
def assign (fields : Fields) (key : String) (value : Value) : Fields :=
  fields.map fun p => if p.1 = key then (key, value) else p

theorem isSome_get? : (fields.get? key).isSome = true ↔ key ∈ fields.keys := by
  induction fields with
  | nil => simp [get?, keys]
  | cons field fields ih =>
    obtain ⟨k, v⟩ := field
    rw [get?_cons, keys, List.map_cons, List.mem_cons]
    by_cases hk : k = key
    · simp [hk]
    · rw [if_neg hk, ih, or_iff_right (Ne.symm hk)]
      rfl

/-- Without the key there is nothing to put the value under. -/
theorem assign_of_notMem (h : key ∉ fields.keys) : fields.assign key value = fields := by
  refine (List.map_congr_left fun p hp => if_neg ?_).trans (List.map_id fields)
  rintro rfl
  exact h (List.mem_map_of_mem hp)

theorem insert_of_mem (h : fields.keys.Nodup) (hkey : key ∈ fields.keys) :
    fields.insert key value = fields.assign key value := by
  induction fields with
  | nil => cases hkey
  | cons field fields ih =>
    obtain ⟨k, v⟩ := field
    obtain ⟨hk, hrest⟩ := List.nodup_cons.1 h
    rw [insert, assign, List.map_cons, ← assign]
    split
    · next heq =>
      subst heq
      rw [assign_of_notMem hk]
    · next hne => rw [ih hrest ((List.mem_cons.1 hkey).resolve_left (Ne.symm hne))]

theorem erase_eq_filter (h : fields.keys.Nodup) :
    fields.erase key = fields.filter fun p => p.1 ≠ key := by
  induction fields with
  | nil => rfl
  | cons field fields ih =>
    obtain ⟨k, v⟩ := field
    obtain ⟨hk, hrest⟩ := List.nodup_cons.1 h
    rw [erase, List.filter_cons]
    split
    · next heq =>
      subst heq
      rw [if_neg (by simp)]
      refine (List.filter_eq_self.2 fun p hp => ?_).symm
      have hne : p.1 ≠ k := fun heq => hk (List.mem_map.2 ⟨p, hp, heq⟩)
      simpa using hne
    · next hne => rw [if_pos (by simpa using hne), ih hrest]

/-- What is there already is put in without a change. -/
theorem insert_of_get? (h : fields.get? key = some value) : fields.insert key value = fields := by
  induction fields with
  | nil => cases h
  | cons field fields ih =>
    obtain ⟨k, v⟩ := field
    rw [get?_cons] at h
    rw [insert]
    split at h
    · next hk =>
      cases h
      rw [if_pos hk]
    · next hk => rw [if_neg hk, ih h]

end Json.Fields

namespace Manifest

open Json (Fields Value)

section
variable {m m' m'' : Manifest} {fields entries : Fields} {change : Fields → Fields × Nat}
  {name range old new version sectionName : String} {u : DependencyUpdate}
  {updates : List DependencyUpdate}

/-! ### Sections -/

/-- The entries of a section, if it is an object. -/
def entriesUnder? (m : Manifest) (sectionName : String) : Option Fields :=
  match m.fields.get? sectionName with
  | some (.object entries) => some entries
  | _ => none

/-- A section has an entry of the name. -/
def declares (m : Manifest) (name sectionName : String) : Bool :=
  (m.entriesUnder? sectionName).any fun entries => entries.keys.contains name

/-- No section that may be changed has two entries of one name. -/
def HasDistinctEntries (m : Manifest) : Prop :=
  ∀ s ∈ patchableSections, ∀ entries : Fields, m.entriesUnder? s = some entries → entries.keys.Nodup

theorem get?_of_entriesUnder? (h : m.entriesUnder? sectionName = some entries) :
    m.fields.get? sectionName = some (.object entries) := by
  rw [entriesUnder?] at h
  split at h
  · next heq =>
    cases h
    exact heq
  · cases h

/-- A manifest that was read has no name twice in a section. -/
theorem hasDistinctEntries_of_parse {path : Path} {text : String} (h : parse path text = .ok m) :
    m.HasDistinctEntries := by
  intro s _ entries hentries
  have hread := Value.sound_object.1 (sound_of_parse h)
  have hsection := hread.2.2 _ (Fields.mem_of_get? (get?_of_entriesUnder? hentries))
  exact (Value.sound_object.1 hsection).1

/-- A field before and after: only what is in a section that may be changed may differ. -/
def FieldKept (a b : String × Value) : Prop :=
  b.1 = a.1 ∧ (b.2 = a.2 ∨ a.1 ∈ patchableSections ∧
    ∃ before after, a.2 = .object before ∧ b.2 = .object after)

theorem FieldKept.refl (a : String × Value) : FieldKept a a := ⟨rfl, .inl rfl⟩

theorem FieldKept.trans {a b c : String × Value} (hab : FieldKept a b) (hbc : FieldKept b c) :
    FieldKept a c := by
  refine ⟨hbc.1.trans hab.1, ?_⟩
  rcases hab.2 with hsame | ⟨hname, before, mid, hbefore, -⟩
  · rw [← hsame, ← hab.1]
    exact hbc.2
  · rcases hbc.2 with hsame | ⟨-, mid', after, -, hafter⟩
    · rw [hsame]
      exact hab.2
    · exact .inr ⟨hname, before, after, hbefore, hafter⟩

/-- The same keys in the same order, and the same under each of them but for the entries of the
    sections that may be changed. -/
def Kept (m m' : Manifest) : Prop := List.Forall₂ FieldKept m.fields m'.fields

theorem Kept.refl (m : Manifest) : Kept m m := List.forall₂_same.2 fun a _ => FieldKept.refl a

theorem Kept.trans (h : Kept m m') (h' : Kept m' m'') : Kept m m'' :=
  forall₂_trans (R := FieldKept) FieldKept.trans h h'

/-! ### One change of every section -/

/-- A section that is no object is not changed. -/
theorem updateSection_eq : updateSection fields sectionName change =
    (entriesUnder? ⟨fields⟩ sectionName).elim (fields, 0) fun entries =>
      (fields.insert sectionName (.object (change entries).1), (change entries).2) := by
  rw [updateSection, entriesUnder?]
  cases fields.get? sectionName with
  | none => rfl
  | some v => cases v <;> rfl

theorem entriesUnder?_updateSection : entriesUnder? ⟨(updateSection fields sectionName change).1⟩ sectionName =
    (entriesUnder? ⟨fields⟩ sectionName).map fun entries => (change entries).1 := by
  rw [updateSection_eq]
  cases hentries : entriesUnder? ⟨fields⟩ sectionName with
  | none => exact hentries
  | some entries =>
    rw [Option.elim_some, entriesUnder?]
    simp only [Fields.get?_insert_self, Option.map_some]

theorem entriesUnder?_updateSection_of_ne {other : String} (h : other ≠ sectionName) :
    entriesUnder? ⟨(updateSection fields sectionName change).1⟩ other = entriesUnder? ⟨fields⟩ other := by
  rw [entriesUnder?, get?_updateSection_of_ne h]
  rfl

/-- The second section is changed in what the change of the first one leaves. -/
theorem fst_updateSections : (m.updateSections change).1 =
    ⟨(updateSection (updateSection m.fields "dependencies" change).1
      "devDependencies" change).1⟩ := rfl

/-- A change is made to each section on its own. -/
theorem entriesUnder?_updateSections (h : sectionName ∈ patchableSections) :
    (m.updateSections change).1.entriesUnder? sectionName =
      (m.entriesUnder? sectionName).map fun entries => (change entries).1 := by
  rw [fst_updateSections]
  rcases List.mem_cons.1 h with rfl | h
  · rw [entriesUnder?_updateSection_of_ne (by decide), entriesUnder?_updateSection]
  · obtain rfl := List.mem_singleton.1 h
    rw [entriesUnder?_updateSection, entriesUnder?_updateSection_of_ne (by decide)]

/-- A change of the sections that declare a name counts them. -/
theorem snd_updateSection {f : Fields → Fields} : (updateSection fields sectionName fun entries =>
    if (entries.get? name).isSome then (f entries, 1) else (entries, 0)).2 =
      if declares ⟨fields⟩ name sectionName then 1 else 0 := by
  rw [updateSection_eq, declares]
  cases entriesUnder? ⟨fields⟩ sectionName with
  | none => rfl
  | some entries =>
    simp only [Option.elim_some, Option.any_some, Fields.isSome_get?, List.contains_iff_mem]
    split <;> rfl

theorem snd_updateSections {f : Fields → Fields} : (m.updateSections fun entries =>
    if (entries.get? name).isSome then (f entries, 1) else (entries, 0)).2 =
      patchableSections.countP (m.declares name) := by
  let change (entries : Fields) : Fields × Nat :=
    if (entries.get? name).isSome then (f entries, 1) else (entries, 0)
  have hsum : (m.updateSections change).2 = 0 + (updateSection m.fields "dependencies" change).2 +
      (updateSection (updateSection m.fields "dependencies" change).1 "devDependencies" change).2 :=
    rfl
  rw [hsum, snd_updateSection, snd_updateSection, declares, declares,
    entriesUnder?_updateSection_of_ne (by decide), ← declares, ← declares]
  simp only [patchableSections, List.countP_cons, List.countP_nil]
  rw [Nat.zero_add, Nat.zero_add]
  exact Nat.add_comm _ _

theorem kept_updateSection (h : sectionName ∈ patchableSections) :
    Kept ⟨fields⟩ ⟨(updateSection fields sectionName change).1⟩ := by
  rw [updateSection_eq]
  cases hentries : entriesUnder? ⟨fields⟩ sectionName with
  | none => exact .refl _
  | some entries =>
    exact forall₂_insert FieldKept.refl (get?_of_entriesUnder? hentries)
      ⟨rfl, .inr ⟨h, entries, _, rfl, rfl⟩⟩

theorem kept_updateSections : Kept m (m.updateSections change).1 :=
  (kept_updateSection (by decide)).trans (kept_updateSection (by decide))

/-- A change that leaves every section as it is leaves the manifest as it is. -/
theorem updateSections_eq_self (h : ∀ s ∈ patchableSections, ∀ entries : Fields,
    m.entriesUnder? s = some entries → (change entries).1 = entries) :
    (m.updateSections change).1 = m := by
  have hsection (s : String) (hs : s ∈ patchableSections) :
      (updateSection m.fields s change).1 = m.fields := by
    rw [updateSection_eq]
    cases hentries : entriesUnder? ⟨m.fields⟩ s with
    | none => rfl
    | some entries =>
      rw [Option.elim_some, h s hs entries hentries]
      exact Fields.insert_of_get? (get?_of_entriesUnder? hentries)
  rw [fst_updateSections, hsection _ (by decide), hsection _ (by decide)]

/-! ### Updates -/

/-- The range of the last update of a name. -/
def lastRange? (updates : List DependencyUpdate) (name : String) : Option String :=
  ((updates.filter (·.name = name)).getLast?).map (·.range)

/-- Entries, each with the range of the last update of its name, or its own value without one. -/
def setTo (updates : List DependencyUpdate) (entries : Fields) : Fields :=
  entries.map fun p => (p.1, ((lastRange? updates p.1).map Value.string).getD p.2)

theorem keys_setTo : (setTo updates entries).keys = entries.keys := by
  rw [Fields.keys, setTo, List.map_map]
  rfl

theorem lastRange?_singleton :
    lastRange? [u] name = if u.name = name then some u.range else none := by
  rw [lastRange?, List.filter_singleton]
  by_cases hname : u.name = name
  · simp [hname]
  · simp [hname]

/-- What is set first only counts where nothing is set later. -/
theorem lastRange?_append {later : List DependencyUpdate} : lastRange? (updates ++ later) name =
    (lastRange? later name).or (lastRange? updates name) := by
  rw [lastRange?, List.filter_append, List.getLast?_append, Option.map_or]
  rfl

/-- Entries set twice are set to what comes later. -/
theorem setTo_append {later : List DependencyUpdate} :
    setTo (updates ++ later) = setTo later ∘ setTo updates := by
  funext entries
  simp only [setTo, Function.comp, List.map_map]
  refine List.map_congr_left fun p _ => ?_
  rw [Function.comp, lastRange?_append]
  cases lastRange? later p.1 <;> rfl

/-- A single update puts its range under its name, where that is. -/
theorem setTo_singleton (h : entries.keys.Nodup) : setTo [⟨name, range⟩] entries =
    (if (entries.get? name).isSome then (entries.insert name (.string range), 1)
      else (entries, 0)).1 := by
  have hassign : setTo [⟨name, range⟩] entries = entries.assign name (.string range) := by
    refine List.map_congr_left fun p _ => ?_
    rw [lastRange?_singleton]
    by_cases hname : p.1 = name
    · simp [hname]
    · simp [hname, Ne.symm hname]
  rw [hassign]
  by_cases hmem : name ∈ entries.keys
  · rw [if_pos (Fields.isSome_get?.2 hmem), Fields.insert_of_mem h hmem]
  · rw [if_neg (mt Fields.isSome_get?.1 hmem), Fields.assign_of_notMem hmem]

/-- What updates come to, in order: the sections with the entries set, all else as it was, and how
    often an update met an entry. -/
structure Sets (m : Manifest) (updates : List DependencyUpdate) (result : Manifest × Nat) :
    Prop where
  kept : Kept m result.1
  sections : ∀ s ∈ patchableSections, result.1.entriesUnder? s = (m.entriesUnder? s).map (setTo updates)
  count : result.2 = (updates.map fun u => patchableSections.countP (m.declares u.name)).sum

theorem Sets.declares {result : Manifest × Nat} (h : Sets m updates result)
    (hs : sectionName ∈ patchableSections) (name : String) :
    result.1.declares name sectionName = m.declares name sectionName := by
  rw [Manifest.declares, Manifest.declares, h.sections sectionName hs]
  cases m.entriesUnder? sectionName with
  | none => rfl
  | some entries => simp only [Option.map_some, Option.any_some, keys_setTo]

theorem Sets.hasDistinctEntries {result : Manifest × Nat} (h : Sets m updates result)
    (hm : m.HasDistinctEntries) : result.1.HasDistinctEntries := by
  intro s hs entries hentries
  rw [h.sections s hs] at hentries
  obtain ⟨before, hbefore, rfl⟩ := Option.map_eq_some_iff.1 hentries
  rw [keys_setTo]
  exact hm s hs before hbefore

theorem sets_setExisting (h : m.HasDistinctEntries) :
    Sets m [⟨name, range⟩] (m.setExisting name range) where
  kept := kept_updateSections
  sections s hs := by
    rw [setExisting, entriesUnder?_updateSections hs]
    cases hentries : m.entriesUnder? s with
    | none => rfl
    | some entries => rw [Option.map_some, Option.map_some, setTo_singleton (h s hs entries hentries)]
  count := by rw [setExisting, snd_updateSections, List.map_singleton, List.sum_singleton]

theorem applyUpdates_cons : m.applyUpdates (u :: updates) =
    (((m.setExisting u.name u.range).1.applyUpdates updates).1, (m.setExisting u.name u.range).2 +
      ((m.setExisting u.name u.range).1.applyUpdates updates).2) := by
  let step (p : Manifest × Nat) (u : DependencyUpdate) : Manifest × Nat :=
    ((p.1.setExisting u.name u.range).1, p.2 + (p.1.setExisting u.name u.range).2)
  have hstep (m : Manifest) (us : List DependencyUpdate) :
      m.applyUpdates us = us.foldl step (m, 0) := rfl
  have hfold (m : Manifest) (n : Nat) : updates.foldl step (m, n) =
      ((m.applyUpdates updates).1, n + (m.applyUpdates updates).2) := by
    induction updates generalizing m n with
    | nil => rfl
    | cons u updates ih =>
      rw [hstep, List.foldl_cons, List.foldl_cons, ih, ih]
      simp only [Nat.add_assoc, Nat.zero_add]
  rw [hstep, List.foldl_cons, hfold, Nat.zero_add]

theorem kept_applyUpdates : Kept m (m.applyUpdates updates).1 := by
  induction updates generalizing m with
  | nil => exact .refl m
  | cons u updates ih =>
    rw [applyUpdates_cons]
    exact kept_updateSections.trans ih

/-- Updates one after another, by induction on how many there are: each leaves the entries' names as
    they were, so what a later one meets does not depend on it. -/
theorem sets_applyUpdates (h : m.HasDistinctEntries) : Sets m updates (m.applyUpdates updates) := by
  induction updates generalizing m with
  | nil =>
    refine ⟨.refl m, fun s _ => ?_, rfl⟩
    have hsetTo : setTo [] = id := funext fun entries => List.map_id entries
    rw [hsetTo, Option.map_id]
    rfl
  | cons u updates ih =>
    have hfirst : Sets m [u] (m.setExisting u.name u.range) := sets_setExisting h
    have hrest := ih (hfirst.hasDistinctEntries h)
    rw [applyUpdates_cons]
    refine ⟨hfirst.kept.trans hrest.kept, fun s hs => ?_, ?_⟩
    · rw [hrest.sections s hs, hfirst.sections s hs, Option.map_map, ← setTo_append]
      rfl
    · rw [hrest.count, hfirst.count, List.map_singleton, List.sum_singleton, List.map_cons,
        List.sum_cons]
      refine congrArg (_ + List.sum ·) (List.map_congr_left fun v _ => ?_)
      exact List.countP_congr fun s hs => by rw [hfirst.declares hs]

/-! ### Renaming -/

/-- Entries with one of them taken out and a new one in its stead: in the place of what the new name
    had, or last. -/
def renamed (old new version : String) (entries : Fields) : Fields :=
  let others : Fields := entries.filter fun p => p.1 ≠ old
  if old ∈ entries.keys then
    if new ∈ others.keys then others.assign new (.string version)
    else others ++ [(new, .string version)]
  else entries

theorem renamed_of_notMem (h : old ∉ entries.keys) : renamed old new version entries = entries :=
  if_neg h

theorem fst_renameEntries (h : entries.keys.Nodup) :
    (renameEntries old new version entries).1 = renamed old new version entries := by
  rw [renameEntries, renamed]
  by_cases hold : old ∈ entries.keys
  · have hothers := (Fields.erase_sublist entries old).map (·.1)
    rw [if_pos (Fields.isSome_get?.2 hold), if_pos hold, ← Fields.erase_eq_filter h]
    dsimp only
    split
    · next hnew => exact Fields.insert_of_mem (h.sublist hothers) hnew
    · next hnew => exact Fields.insert_of_notMem hnew
  · rw [if_neg (mt Fields.isSome_get?.1 hold), if_neg hold]

theorem nodup_keys_renameEntries (h : entries.keys.Nodup) :
    (renameEntries old new version entries).1.keys.Nodup := by
  rw [renameEntries]
  split
  · exact Fields.nodup_keys_insert (h.sublist ((Fields.erase_sublist entries old).map _))
  · exact h

theorem notMem_keys_renamed (h : entries.keys.Nodup) (hne : old ≠ new) :
    old ∉ (renamed old new version entries).keys := by
  rw [← fst_renameEntries h]
  exact fun hmem => absurd (Fields.isSome_get?.2 hmem) (by simp [get?_renameEntries h hne])

/-- What a renaming comes to: the sections that have the old name with the entry renamed, all else
    as it was; it says whether there was such a section, and made once more it finds none. -/
structure Renames (m : Manifest) (old new version : String) (result : Manifest × Bool) : Prop where
  kept : Kept m result.1
  sections : ∀ s ∈ patchableSections,
    result.1.entriesUnder? s = (m.entriesUnder? s).map (renamed old new version)
  changed : ∀ s ∈ patchableSections,
    result.1.entriesUnder? s ≠ m.entriesUnder? s ↔ m.declares old s = true
  answer : result.2 = true ↔ ∃ s ∈ patchableSections, m.declares old s = true
  again : result.1.renameDependency old new version = (result.1, false)

theorem renameDependency_eq : m.renameDependency old new version =
    ((m.updateSections (renameEntries old new version)).1,
      decide (0 < patchableSections.countP (m.declares old))) := by
  rw [← snd_updateSections (f := fun entries => (entries.erase old).insert new (.string version))]
  rfl

theorem hasDistinctEntries_renameDependency (h : m.HasDistinctEntries) :
    (m.renameDependency old new version).1.HasDistinctEntries := by
  intro s hs entries hentries
  rw [renameDependency_eq, entriesUnder?_updateSections hs] at hentries
  obtain ⟨before, hbefore, rfl⟩ := Option.map_eq_some_iff.1 hentries
  exact nodup_keys_renameEntries (h s hs before hbefore)

theorem entriesUnder?_renameDependency (h : m.HasDistinctEntries) (hs : sectionName ∈ patchableSections) :
    (m.renameDependency old new version).1.entriesUnder? sectionName =
      (m.entriesUnder? sectionName).map (renamed old new version) := by
  rw [renameDependency_eq, entriesUnder?_updateSections hs]
  cases hentries : m.entriesUnder? sectionName with
  | none => rfl
  | some entries =>
    rw [Option.map_some, Option.map_some, fst_renameEntries (h sectionName hs entries hentries)]

theorem declares_renameDependency (h : m.HasDistinctEntries) (hne : old ≠ new)
    (hs : sectionName ∈ patchableSections) :
    (m.renameDependency old new version).1.declares old sectionName = false := by
  rw [declares, entriesUnder?_renameDependency h hs]
  cases hentries : m.entriesUnder? sectionName with
  | none => rfl
  | some entries =>
    have hgone : old ∉ (renamed old new version entries).keys :=
      notMem_keys_renamed (h sectionName hs entries hentries) hne
    simpa using hgone

/-- Where no section has the old name nothing is renamed. -/
theorem renameDependency_of_not_declares
    (h : ∀ s ∈ patchableSections, m.declares old s = false) :
    m.renameDependency old new version = (m, false) := by
  have hcount : patchableSections.countP (m.declares old) = 0 := by
    rw [List.countP_eq_zero]
    intro s hs
    simp [h s hs]
  have hself : (m.updateSections (renameEntries old new version)).1 = m := by
    refine updateSections_eq_self fun s hs entries hentries => ?_
    have habsent : old ∉ entries.keys := by
      have hdeclares := h s hs
      rw [declares, hentries] at hdeclares
      simpa using hdeclares
    rw [renameEntries, if_neg (mt Fields.isSome_get?.1 habsent)]
  rw [renameDependency_eq, hcount, hself]
  rfl

theorem renames_renameDependency (h : m.HasDistinctEntries) (hne : old ≠ new) :
    Renames m old new version (m.renameDependency old new version) where
  kept := kept_updateSections
  sections s hs := entriesUnder?_renameDependency h hs
  changed s hs := by
    constructor
    · intro hchanged
      by_contra habsent
      refine hchanged ?_
      rw [entriesUnder?_renameDependency h hs]
      cases hentries : m.entriesUnder? s with
      | none => rfl
      | some entries =>
        have hnot : old ∉ entries.keys := by simpa [declares, hentries] using habsent
        rw [Option.map_some, renamed_of_notMem hnot]
    · intro hdeclares hsame
      have hgone : (m.renameDependency old new version).1.declares old s = false :=
        declares_renameDependency h hne hs
      rw [declares, hsame, ← declares, hdeclares] at hgone
      cases hgone
  answer := by
    rw [renameDependency_eq, decide_eq_true_eq, List.countP_pos_iff]
  again := renameDependency_of_not_declares fun s hs => declares_renameDependency h hne hs

end

/-! ### Histories -/

/-- A change that can be made to a manifest. -/
inductive Change
  | set (name range : String)
  | update (updates : List DependencyUpdate)
  | rename (old new version : String)
  deriving Repr, DecidableEq

namespace Change

/-- The updates that a change consists of; a renaming is something else. -/
def updates? : Change → Option (List DependencyUpdate)
  | set name range => some [⟨name, range⟩]
  | update updates => some updates
  | rename .. => none

/-- The manifest after a change. -/
def apply (m : Manifest) : Change → Manifest
  | set name range => (m.setExisting name range).1
  | update updates => (m.applyUpdates updates).1
  | rename old new version => (m.renameDependency old new version).1

end Change

variable {m : Manifest}

theorem kept_apply (c : Change) : Kept m (c.apply m) := by
  cases c with
  | set name range => exact kept_updateSections
  | update updates => exact kept_applyUpdates
  | rename old new version => exact kept_updateSections

theorem hasDistinctEntries_apply (c : Change) (h : m.HasDistinctEntries) :
    (c.apply m).HasDistinctEntries := by
  cases c with
  | set name range => exact (sets_setExisting h).hasDistinctEntries h
  | update updates => exact (sets_applyUpdates h).hasDistinctEntries h
  | rename old new version => exact hasDistinctEntries_renameDependency h

/-- The manifest after a history of changes. -/
def after (m : Manifest) (changes : List Change) : Manifest := changes.foldl Change.apply m

theorem after_cons (c : Change) (changes : List Change) :
    m.after (c :: changes) = (c.apply m).after changes := rfl

/-- Nothing but the sections is ever changed. -/
theorem kept_after (changes : List Change) : Kept m (m.after changes) := by
  induction changes generalizing m with
  | nil => exact .refl m
  | cons c changes ih => exact (kept_apply c).trans ih

theorem hasDistinctEntries_after (h : m.HasDistinctEntries) (changes : List Change) :
    (m.after changes).HasDistinctEntries := by
  induction changes generalizing m with
  | nil => exact h
  | cons c changes ih => exact ih (hasDistinctEntries_apply c h)

/-- A history without a renaming comes to all of its updates, one after another. -/
theorem entriesUnder?_after {changes : List Change} {updates : List (List DependencyUpdate)}
    (h : m.HasDistinctEntries) (hupdates : changes.mapM Change.updates? = some updates)
    {s : String} (hs : s ∈ patchableSections) :
    (m.after changes).entriesUnder? s = (m.entriesUnder? s).map (setTo updates.flatten) := by
  induction changes generalizing m updates with
  | nil =>
    cases hupdates
    have hnone : Sets m [] (m.applyUpdates []) := sets_applyUpdates h
    exact hnone.sections s hs
  | cons c changes ih =>
    rw [List.mapM_cons, Option.bind_eq_bind, Option.bind_eq_some_iff] at hupdates
    obtain ⟨first, hfirst, hupdates⟩ := hupdates
    obtain ⟨rest, hrest, hupdates⟩ := Option.bind_eq_some_iff.1 hupdates
    cases hupdates
    have hsection : (c.apply m).entriesUnder? s = (m.entriesUnder? s).map (setTo first) := by
      cases c with
      | set name range =>
        cases hfirst
        exact (sets_setExisting h).sections s hs
      | update updates =>
        cases hfirst
        exact (sets_applyUpdates h).sections s hs
      | rename old new version => cases hfirst
    rw [after_cons, ih (hasDistinctEntries_apply c h) hrest, hsection, Option.map_map,
      List.flatten_cons, setTo_append]

/-- Whatever changes were made to a manifest, its keys and all values but the entries of the two
    sections are what they were. Whatever is done to it next does what it does to any manifest:
    single updates, lists of them and whole histories of them set each entry to the last range that
    is given for its name, and a renaming renames. -/
theorem history_conduct (h : m.HasDistinctEntries) (changes : List Change) :
    Kept m (m.after changes) ∧
    (∀ name range, Sets (m.after changes) [⟨name, range⟩]
      ((m.after changes).setExisting name range)) ∧
    (∀ updates, Sets (m.after changes) updates ((m.after changes).applyUpdates updates)) ∧
    (∀ later updates, List.mapM Change.updates? later = some updates → ∀ s ∈ patchableSections,
      (m.after (changes ++ later)).entriesUnder? s =
        ((m.after changes).entriesUnder? s).map (setTo updates.flatten)) ∧
    ∀ old new version, old ≠ new → Renames (m.after changes) old new version
      ((m.after changes).renameDependency old new version) := by
  have hdistinct := hasDistinctEntries_after h changes
  refine ⟨kept_after changes, fun _ _ => sets_setExisting hdistinct,
    fun _ => sets_applyUpdates hdistinct, fun later updates hlater s hs => ?_,
    fun _ _ _ => renames_renameDependency hdistinct⟩
  rw [after, List.foldl_append]
  exact entriesUnder?_after hdistinct hlater hs

/-- One section is a table, the other is none. -/
def mixedManifest : Manifest where
  fields := [("devDependencies", .array []), ("name", .string "x"), ("dependencies",
    .object [("a", .string "1"), ("b", .null), ("c", .string "3")])]

theorem history_conduct_mixed :
    mixedManifest.HasDistinctEntries ∧
    (mixedManifest.after [.set "b" "2", .rename "c" "d" "4"]).entriesUnder? "dependencies" =
      some [("a", .string "1"), ("b", .string "2"), ("d", .string "4")] ∧
    ((mixedManifest.after [.set "b" "2", .rename "c" "d" "4"]).renameDependency "b" "a"
      "5").1.entriesUnder? "dependencies" = some [("a", .string "5"), ("d", .string "4")] := by
  have hdistinct : mixedManifest.HasDistinctEntries := by
    intro s hs entries hentries
    rcases List.mem_cons.1 hs with rfl | hs
    · cases hentries
      decide
    · obtain rfl := List.mem_singleton.1 hs
      cases hentries
  have hafter : (mixedManifest.after [.set "b" "2", .rename "c" "d" "4"]).entriesUnder? "dependencies" =
      some [("a", .string "1"), ("b", .string "2"), ("d", .string "4")] := rfl
  obtain ⟨-, -, -, -, hrename⟩ := history_conduct hdistinct [.set "b" "2", .rename "c" "d" "4"]
  refine ⟨hdistinct, hafter, ?_⟩
  rw [(hrename "b" "a" "5" (by decide)).sections _ (by decide), hafter]
  rfl

end Manifest
end RouterShift
