import Mathlib.Data.List.Forall2
import RouterShift.Package.Manifest
import RouterShift.Proofs.Json.Lasting

/-! What updates do to a manifest. One manifest revises another when it has the same keys in the
    same order, at both levels, and differs only in ranges of dependencies that were declared
    before (`Revises`). Updates revise a manifest, and a revision is saved and loaded again as it
    is when that holds of the manifest. -/

namespace RouterShift.Manifest

open Json (Fields Value)

/-! ### Saving and loading -/

/-- No number in the manifest is anything but an integer. One that does not fit 64 bits is read as a
    double, so there is none of those either. -/
def HasIntegers (m : Manifest) : Prop :=
  ∀ n, Value.Within (.number n) (.object m.fields) → ∃ i : Int, n = .integer i

/-- A manifest that is the same when it is saved and loaded. -/
def Lasting (m : Manifest) : Prop := (Value.object m.fields).Lasting

theorem Lasting.hasIntegers {m : Manifest} (h : m.Lasting) : m.HasIntegers := by
  intro n hn
  cases n with
  | integer i => exact ⟨i, rfl⟩
  | real x => cases h.words _ hn

theorem parse_render {m : Manifest} (h : m.Lasting) (path : Path) : parse path m.render = .ok m := by
  have hread : Json.parse? m.render = some (.object m.fields) :=
    Json.parse?_pretty h (by simp [Json.isBlank]) (by intro c hc; cases hc; exact .inl rfl)
  rw [parse, hread]

theorem lasting_of_parse {path : Path} {text : String} {m : Manifest}
    (h : parse path text = .ok m) (hintegers : m.HasIntegers) : m.Lasting := by
  rw [parse] at h
  split at h
  · cases h
  · rename_i hread
    cases h
    exact Json.lasting_of_parse? hread hintegers
  · cases h

/-! ### Revisions -/

section
variable {P Q : String → String → Prop} {a b c : String × Value}

/-- An entry before and after: only its value may differ, and then it is a range for its name. -/
def EntryRevised (P : String → String → Prop) (a b : String × Value) : Prop :=
  b.1 = a.1 ∧ (b.2 = a.2 ∨ ∃ range, b.2 = .string range ∧ P a.1 range)

theorem EntryRevised.refl (a : String × Value) : EntryRevised P a a := ⟨rfl, .inl rfl⟩

theorem EntryRevised.trans (hab : EntryRevised P a b) (hbc : EntryRevised P b c) :
    EntryRevised P a c := by
  refine ⟨hbc.1.trans hab.1, ?_⟩
  rcases hbc.2 with hsame | ⟨range, hrange, hP⟩
  · rw [hsame]
    exact hab.2
  · exact .inr ⟨range, hrange, hab.1 ▸ hP⟩

/-- The entries of a section before and after. -/
def SectionRevised (P : String → String → Prop) (u v : Value) : Prop :=
  ∃ before after, u = .object before ∧ v = .object after ∧
    List.Forall₂ (EntryRevised P) before after

/-- A field before and after: only a section whose entries may be changed may differ. -/
def FieldRevised (P : String → String → Prop) (a b : String × Value) : Prop :=
  b.1 = a.1 ∧ (b.2 = a.2 ∨ a.1 ∈ patchableSections ∧ SectionRevised P a.2 b.2)

end

theorem forall₂_trans {α : Type} {R : α → α → Prop} (h : ∀ {a b c}, R a b → R b c → R a c)
    {as bs cs : List α} (hab : List.Forall₂ R as bs) (hbc : List.Forall₂ R bs cs) :
    List.Forall₂ R as cs := by
  induction hab generalizing cs with
  | nil => exact hbc
  | cons ha _ ih =>
    cases hbc with
    | cons hb hrest => exact .cons (h ha hb) (ih hrest)

theorem exists_of_forall₂ {α : Type} {R : α → α → Prop} {as bs : List α}
    (h : List.Forall₂ R as bs) {b : α} (hb : b ∈ bs) : ∃ a ∈ as, R a b := by
  induction h with
  | nil => cases hb
  | cons ha _ ih =>
    rcases List.mem_cons.1 hb with rfl | hb
    · exact ⟨_, List.mem_cons_self, ha⟩
    · obtain ⟨a, hmem, hR⟩ := ih hb
      exact ⟨a, List.mem_cons_of_mem _ hmem, hR⟩

theorem keys_eq_of_forall₂ {R : String × Value → String × Value → Prop}
    (hR : ∀ a b, R a b → b.1 = a.1) {before after : Fields} (h : List.Forall₂ R before after) :
    after.keys = before.keys := by
  induction h with
  | nil => rfl
  | cons hab _ ih => exact congrArg₂ List.cons (hR _ _ hab) ih

/-- Fields with one value put in the place of another. -/
theorem forall₂_insert {R : String × Value → String × Value → Prop} (hrefl : ∀ a, R a a)
    {fields : Fields} {key : String} {u v : Value} (hget : fields.get? key = some u)
    (hR : R (key, u) (key, v)) : List.Forall₂ R fields (fields.insert key v) := by
  induction fields with
  | nil => cases hget
  | cons field fields ih =>
    obtain ⟨k, w⟩ := field
    rw [Fields.get?_cons] at hget
    rw [Fields.insert]
    split at hget
    · rename_i hk
      cases hget
      rw [if_pos hk, hk]
      exact .cons hR (List.forall₂_same.2 fun a _ => hrefl a)
    · rename_i hk
      rw [if_neg hk]
      exact .cons (hrefl _) (ih hget)

section
variable {P Q : String → String → Prop} {m m' m'' : Manifest}

theorem SectionRevised.trans {u v w : Value} (huv : SectionRevised P u v)
    (hvw : SectionRevised P v w) : SectionRevised P u w := by
  obtain ⟨before, mid, rfl, rfl, hbefore⟩ := huv
  obtain ⟨mid', after, hmid, rfl, hafter⟩ := hvw
  cases hmid
  exact ⟨before, after, rfl, rfl, forall₂_trans (R := EntryRevised P) EntryRevised.trans hbefore hafter⟩

theorem FieldRevised.refl (a : String × Value) : FieldRevised P a a := ⟨rfl, .inl rfl⟩

theorem FieldRevised.trans {a b c : String × Value} (hab : FieldRevised P a b)
    (hbc : FieldRevised P b c) : FieldRevised P a c := by
  refine ⟨hbc.1.trans hab.1, ?_⟩
  rcases hbc.2 with hsame | ⟨hname, hsection⟩
  · rw [hsame]
    exact hab.2
  · rw [hab.1] at hname
    rcases hab.2 with hsame | ⟨-, hsection'⟩
    · exact .inr ⟨hname, hsame ▸ hsection⟩
    · exact .inr ⟨hname, hsection'.trans hsection⟩

/-- A manifest before and after: the same keys, sections with the same keys, and nothing else in a
    dependency than what it had, or a range for it. -/
def Revises (P : String → String → Prop) (m m' : Manifest) : Prop :=
  List.Forall₂ (FieldRevised P) m.fields m'.fields

theorem Revises.refl (m : Manifest) : Revises P m m :=
  List.forall₂_same.2 fun a _ => FieldRevised.refl a

theorem Revises.trans (h : Revises P m m') (h' : Revises P m' m'') : Revises P m m'' :=
  forall₂_trans (R := FieldRevised P) FieldRevised.trans h h'

theorem Revises.imp (hPQ : ∀ name range, P name range → Q name range) (h : Revises P m m') :
    Revises Q m m' := by
  have hentry (a b : String × Value) (hab : EntryRevised P a b) : EntryRevised Q a b := by
    refine ⟨hab.1, hab.2.imp_right ?_⟩
    rintro ⟨range, hrange, hP⟩
    exact ⟨range, hrange, hPQ _ _ hP⟩
  refine List.Forall₂.imp (fun a b hab => ⟨hab.1, hab.2.imp_right ?_⟩) h
  rintro ⟨hname, before, after, hbefore, hafter, hentries⟩
  exact ⟨hname, before, after, hbefore, hafter, hentries.imp hentry⟩

/-! ### Updates -/

theorem revises_updateSection {fields : Fields} {sectionName : String}
    {change : Fields → Fields × Nat} (hname : sectionName ∈ patchableSections)
    (hchange : ∀ entries, List.Forall₂ (EntryRevised P) entries (change entries).1) :
    List.Forall₂ (FieldRevised P) fields (updateSection fields sectionName change).1 := by
  rw [updateSection]
  split
  · rename_i entries hentries
    refine forall₂_insert FieldRevised.refl hentries ⟨rfl, .inr ⟨hname, ?_⟩⟩
    exact ⟨entries, _, rfl, rfl, hchange entries⟩
  · exact List.forall₂_same.2 fun a _ => FieldRevised.refl a

theorem revises_updateSections {change : Fields → Fields × Nat}
    (hchange : ∀ entries, List.Forall₂ (EntryRevised P) entries (change entries).1) :
    Revises P m (m.updateSections change).1 := by
  have hfirst : List.Forall₂ (FieldRevised P) m.fields
      (updateSection m.fields "dependencies" change).1 :=
    revises_updateSection (by decide) hchange
  have hsecond : List.Forall₂ (FieldRevised P) (updateSection m.fields "dependencies" change).1
      (updateSection (updateSection m.fields "dependencies" change).1 "devDependencies" change).1 :=
    revises_updateSection (by decide) hchange
  exact forall₂_trans (R := FieldRevised P) FieldRevised.trans hfirst hsecond

theorem revises_setExisting {name range : String} (h : P name range) :
    Revises P m (m.setExisting name range).1 := by
  refine revises_updateSections fun entries => ?_
  cases hget : Fields.get? entries name with
  | none =>
    exact List.forall₂_same.2 fun a _ => EntryRevised.refl a
  | some v =>
    simp only [Option.isSome_some, if_true]
    exact forall₂_insert EntryRevised.refl hget ⟨rfl, .inr ⟨range, rfl, h⟩⟩

/-- Updates change nothing but what they name, and only where it is declared. -/
theorem revises_applyUpdates {updates : List DependencyUpdate}
    (h : ∀ u ∈ updates, P u.name u.range) : Revises P m (m.applyUpdates updates).1 := by
  rw [applyUpdates]
  generalize 0 = changed
  induction updates generalizing m changed with
  | nil => exact .refl m
  | cons u updates ih =>
    have hfirst := revises_setExisting (m := m) (h u List.mem_cons_self)
    exact hfirst.trans (ih (fun v hv => h v (List.mem_cons_of_mem u hv)) _)

/-! ### Revisions of what lasts -/

/-- A revision has no numbers of its own. -/
theorem Revises.within_number (h : Revises P m m') {n : Json.Number}
    (hn : Value.Within (.number n) (.object m'.fields)) :
    Value.Within (.number n) (.object m.fields) := by
  rcases Value.within_object.1 hn with hn | ⟨b, hb, hn⟩
  · cases hn
  obtain ⟨a, ha, -, hsame | ⟨-, before, after, hbefore, hafter, hentries⟩⟩ := exists_of_forall₂ h hb
  · exact .field (hsame ▸ hn) ha
  · rw [hafter] at hn
    rcases Value.within_object.1 hn with hn | ⟨d, hd, hn⟩
    · cases hn
    obtain ⟨c, hc, -, hsame | ⟨range, hrange, -⟩⟩ := exists_of_forall₂ hentries hd
    · refine .field ?_ ha
      rw [hbefore]
      exact .field (hsame ▸ hn) hc
    · rw [hrange] at hn
      cases hn

theorem Revises.settled (h : Revises P m m') (hm : (Value.object m.fields).Settled) :
    (Value.object m'.fields).Settled := by
  intro fields hw
  rcases Value.within_object.1 hw with hw | ⟨b, hb, hw⟩
  · cases hw
    rw [keys_eq_of_forall₂ (fun _ _ hab => hab.1) h]
    exact hm _ (.self _)
  obtain ⟨a, ha, -, hsame | ⟨-, before, after, hbefore, hafter, hentries⟩⟩ := exists_of_forall₂ h hb
  · exact hm fields (.field (hsame ▸ hw) ha)
  · rw [hafter] at hw
    rcases Value.within_object.1 hw with hw | ⟨d, hd, hw⟩
    · cases hw
      rw [keys_eq_of_forall₂ (fun _ _ hcd => hcd.1) hentries]
      refine hm before (.field ?_ ha)
      rw [hbefore]
      exact .self _
    obtain ⟨c, hc, -, hsame | ⟨range, hrange, -⟩⟩ := exists_of_forall₂ hentries hd
    · refine hm fields (.field ?_ ha)
      rw [hbefore]
      exact .field (hsame ▸ hw) hc
    · rw [hrange] at hw
      cases hw

theorem Revises.isProper (h : Revises P m m') {depth : Nat}
    (hm : (Value.object m.fields).isProper depth = true) :
    (Value.object m'.fields).isProper depth = true := by
  rw [Value.isProper_object] at hm ⊢
  refine ⟨hm.1, fun b hb => ?_⟩
  obtain ⟨a, ha, -, hsame | ⟨-, before, after, hbefore, hafter, hentries⟩⟩ := exists_of_forall₂ h hb
  · rw [hsame]
    exact hm.2 a ha
  · have hsection := hm.2 a ha
    rw [hbefore, Value.isProper_object] at hsection
    rw [hafter, Value.isProper_object]
    refine ⟨hsection.1, fun d hd => ?_⟩
    obtain ⟨c, hc, -, hsame | ⟨range, hrange, -⟩⟩ := exists_of_forall₂ hentries hd
    · rw [hsame]
      exact hsection.2 c hc
    · rw [hrange]
      rfl

theorem Revises.lasting (h : Revises P m m') (hm : m.Lasting) : m'.Lasting where
  settled := h.settled hm.settled
  proper := h.isProper hm.proper
  words n hn := hm.words n (h.within_number hn)

end
end RouterShift.Manifest
