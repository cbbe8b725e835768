import RouterShift.Proofs.Package.Replacement

/-! When moving a package into the maintenance scope a second time changes nothing. -/

namespace RouterShift.PackageName
open Text (afterStart? beforeEnd? cutFirst?)

/-- The text with the name of a package put into the maintenance scope. -/
def moved (package text : String) : String := replace text package (maintenance package)

/-- Moving the package once more leaves the text alone. -/
def Settles (package text : String) : Prop := moved package (moved package text) = moved package text

/-! ### The name in the maintenance scope -/

theorem toList_maintenance (package : String) : (maintenance package).toList =
    maintenanceScope.toList ++ '/' :: (unscoped package).toList := by
  rw [maintenance]
  simp [String.toList_append, toString]

/-- A name is its own part behind the scope, or it has a scope and that part behind a slash. -/
theorem unscoped_cases (package : String) : unscoped package = package ∨
    ∃ s u, package.toList = '@' :: s ++ '/' :: u ∧ '/' ∉ s ∧ (unscoped package).toList = u := by
  rw [unscoped]
  cases hstart : afterStart? ['@'] package.toList with
  | none => exact .inl rfl
  | some named =>
    cases hcut : cutFirst? ['/'] named with
    | none => exact .inl (by simp only [hcut])
    | some found =>
      obtain ⟨s, u⟩ := found
      have hnamed := Text.append_of_cutFirst? hcut
      refine .inr ⟨s, u, ?_, ?_, ?_⟩
      · rw [Text.afterStart?_eq_some.1 hstart, hnamed]
        simp
      · exact Text.not_mem_of_cutFirst?_singleton hcut
      · simp only [hcut, String.toList_ofList]

/-- The scope and the slash behind it. -/
def maintenancePrefix : List Char := maintenanceScope.toList ++ ['/']

theorem maintenancePrefix_ne_nil : maintenancePrefix ≠ [] := by
  rw [maintenancePrefix]
  simp

variable {package text : String}

/-- Nothing is to be done for a name that is in the scope. -/
theorem moved_of_fixed (h : package = "" ∨ package = maintenance package) : moved package text = text := by
  rw [moved, replace, if_pos]
  rw [Bool.or_eq_true, String.isEmpty_iff, beq_iff_eq]
  exact h

theorem moved_eq (h : ¬(package = "" ∨ package = maintenance package)) : moved package text =
    String.ofList (replaceFrom package.toList (maintenance package).toList
      (beforeEnd? package.toList (maintenance package).toList) [] text.toList) := by
  rw [moved, replace, if_neg]
  rw [Bool.or_eq_true, String.isEmpty_iff, beq_iff_eq]
  exact h

/-- A name without a scope is put behind the scope. -/
theorem moved_of_unscoped (hne : package ≠ "") (h : unscoped package = package) :
    moved package text =
      String.ofList (prefixed maintenancePrefix package.toList [] text.toList) := by
  have hnew : (maintenance package).toList = maintenancePrefix ++ package.toList := by
    rw [toList_maintenance, h, maintenancePrefix]
    simp
  rw [moved_eq, Text.beforeEnd?_eq_some.2 hnew, hnew]
  · rfl
  rintro (rfl | heq)
  · exact hne rfl
  · rw [← heq] at hnew
    exact maintenancePrefix_ne_nil (List.append_left_eq_self.1 hnew.symm)

/-- A name with another scope gets the one in the place of the other. -/
theorem moved_of_scoped {s u : List Char} (hold : package.toList = '@' :: s ++ '/' :: u)
    (hs : '/' ∉ s) (hu : (unscoped package).toList = u) (hne : package ≠ maintenance package) :
    Scoped ('@' :: s) maintenanceScope.toList u package.toList (maintenance package).toList ∧
      moved package text = String.ofList
        (exchanged package.toList (maintenance package).toList [] text.toList) := by
  have hnew : (maintenance package).toList = maintenanceScope.toList ++ '/' :: u := by
    rw [toList_maintenance, hu]
  have hscope : '/' ∉ maintenanceScope.toList := by decide
  have hscopes : '@' :: s ≠ maintenanceScope.toList := by
    intro heq
    rw [heq, ← hnew] at hold
    exact hne (String.toList_inj.1 hold)
  refine ⟨⟨hold, hnew, by simpa using hs, hscope, hscopes⟩, ?_⟩
  -- the scope has one `@` only, so the old name is no ending of the new one
  have hend : beforeEnd? package.toList (maintenance package).toList = none := by
    rw [Option.eq_none_iff_forall_ne_some]
    intro front hfront
    rw [Text.beforeEnd?_eq_some, hold, hnew, List.cons_append, ← List.cons_append,
      ← List.append_assoc] at hfront
    have hscope' := List.append_cancel_right hfront
    cases front with
    | nil => exact hscopes hscope'.symm
    | cons c front =>
      have htail : "ngx-maintenance".toList = front ++ '@' :: s := List.tail_eq_of_cons_eq hscope'
      have hat : '@' ∉ "ngx-maintenance".toList := by decide
      exact hat (htail ▸ by simp)
  rw [moved_eq, hend]
  · rfl
  rintro (rfl | heq)
  · simp at hold
  · exact hne heq

/-! ### When it settles -/

/-- Whether moving a package twice is the same as moving it once for every text is decided by the
    texts that have the name just behind a beginning of it, or just in front of an ending. -/
theorem settles_iff : (∀ text, Settles package text) ↔ ∀ x y, x ++ y = package.toList →
    Settles package (String.ofList x ++ package) ∧ Settles package (package ++ String.ofList y) := by
  refine ⟨fun h x y _ => ⟨h _, h _⟩, fun h text => ?_⟩
  by_cases hfixed : package = "" ∨ package = maintenance package
  · rw [Settles, moved_of_fixed hfixed, moved_of_fixed hfixed]
  obtain ⟨hempty, hne⟩ := not_or.1 hfixed
  rcases unscoped_cases package with hsame | ⟨s, u, hold, hs, hu⟩
  · have hnil : package.toList ≠ [] := fun hnil => hempty (String.toList_inj.1 hnil)
    have hsettles (text : String) : Settles package text ↔
        IsPrefixedOnce maintenancePrefix package.toList text.toList := by
      rw [Settles, moved_of_unscoped hempty hsame, moved_of_unscoped hempty hsame,
        String.toList_ofList, String.ofList_inj]
      rfl
    rw [hsettles]
    refine prefixed_twice hnil maintenancePrefix_ne_nil (fun x y hxy => ?_) _ fun more hmore => hmore
    have hx := (h x y hxy).1
    rwa [hsettles, String.toList_append, String.toList_ofList] at hx
  · have hscoped := (@moved_of_scoped package text s u hold hs hu hne).1
    have hsettles (text : String) : Settles package text ↔
        IsExchangedOnce package.toList (maintenance package).toList text.toList := by
      rw [Settles, (moved_of_scoped hold hs hu hne).2, (moved_of_scoped hold hs hu hne).2,
        String.toList_ofList, String.ofList_inj]
      rfl
    rw [hsettles]
    refine hscoped.exchanged_twice (fun x y hxy => ?_) _ _ _
    have hxy' := h x y hxy
    rwa [hsettles, hsettles, String.toList_append, String.toList_append, String.toList_ofList,
      String.toList_ofList] at hxy'

end RouterShift.PackageName
