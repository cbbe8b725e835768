import RouterShift.Proofs.Upgrade.Climb

/-! A repair that aborts. Conflicts are settled one by one, by a version to pin or by a forced
    installation, and the manifest is patched with all of the pins at once when no conflict is left.
    So where one of them cannot be settled, none of the pins found before it has been written
    (`repair_aborts`). -/

namespace RouterShift

/-- The content of the file that a path of the tree names. -/
def Entry.content? (tree : Entry) (p : Path) : Option Content :=
  match tree.locate? [] p with
  | some (file content) => some content
  | _ => none

namespace Upgrade
open Work

/-- The errors of a repair that finds a conflict it cannot settle: the registry does not answer, or
    the installation cannot be forced. -/
inductive RepairError.Aborts : RepairError → Prop
  | lookup (cause : RegistryError) : Aborts (.lookup cause)
  | forcedInstall (c : PeerConflict) (f : CommandFailure) : Aborts (.forcedInstall c f)

section
variable {ρ : Type} {means : Means ρ} {project : Path} {s t : Session ρ}

/-- The file at a path holds what it held before. -/
def SameContent (path : Path) (s t : Session ρ) : Prop := t.tree.content? path = s.tree.content? path

instance (path : Path) : IsPreorder (Session ρ) (SameContent path) where
  refl _ := rfl
  trans _ _ _ hst htu := htu.trans hst

/-- A conflict is not settled when the registry fails on it, or when it asks for no version and the
    installation cannot be forced. -/
theorem settle_eq_error {c : PeerConflict} {e : RepairError}
    (h : (settle means project c).start s = (.error e, t)) :
    (∃ cause, e = .lookup cause ∧ pin? means.registry c = .error cause) ∨
      ∃ f, e = .forcedInstall c f ∧ pin? means.registry c = .ok none := by
  rw [settle, start_bind_ok (start_say ..)] at h
  rcases start_bind_eq_error h with hpin | ⟨found, u, hpin, hrest⟩
  · obtain ⟨cause, hcause, rfl⟩ := start_of_causing_error hpin
    rw [start_ofExcept] at hcause
    exact .inl ⟨cause, rfl, congrArg Prod.fst hcause⟩
  · have hfound := start_of_causing_ok hpin
    rw [start_ofExcept] at hfound
    cases found with
    | some update => cases hrest
    | none =>
      rcases start_bind_eq_error hrest with hforce | ⟨_, _, -, hpure⟩
      · rw [forceInstall, start_bind_ok (start_say ..)] at hforce
        obtain ⟨f, -, rfl⟩ := start_of_causing_error hforce
        exact .inr ⟨f, rfl, congrArg Prod.fst hfound⟩
      · cases hpure

/-- When forcing an installation does not write the manifest, a repair that aborts leaves it as it
    was. It aborts at the first conflict that cannot be settled, however many were settled before,
    and its error says what became of that one. -/
theorem repair_aborts {diagnosis : Diagnosis} {e : RepairError}
    (hforced : ∀ state tree,
      (means.runner state tree "npm install -f" project).2.2.content? (manifestOf project) =
        tree.content? (manifestOf project))
    (hrepair : (repair means project diagnosis).start s = (.error e, t)) (habort : e.Aborts) :
    t.tree.content? (manifestOf project) = s.tree.content? (manifestOf project) ∧
      ∃ settled c rest, diagnosis = .incompatiblePeers (settled ++ c :: rest) ∧
        (∀ b ∈ settled, ∃ found, pin? means.registry b = .ok found) ∧
        ((∃ cause, e = .lookup cause ∧ pin? means.registry c = .error cause) ∨
          ∃ f, e = .forcedInstall c f ∧ pin? means.registry c = .ok none) := by
  have hmanifest (cause : ManifestError) : ¬ (RepairError.manifest cause).Aborts := nofun
  have hcommand (cause : CommandFailure) : ¬ (RepairError.command cause).Aborts := nofun
  have hconflicts (hother : ∀ conflicts, diagnosis ≠ .incompatiblePeers conflicts) : False := by
    have hfails : Fails (¬ ·.Aborts) (repair means project diagnosis) :=
      fails_repair_of hmanifest hcommand diagnosis fun conflicts h => absurd h (hother conflicts)
    exact hfails s e (congrArg Prod.fst hrepair) habort
  cases diagnosis with
  | npmVersion | unmetPeers => exact (hconflicts nofun).elim
  | incompatiblePeers conflicts =>
    rcases start_bind_eq_error hrepair with hsettle | ⟨found, u, -, hpatch⟩
    · have hkeeps : Keeps (SameContent (manifestOf project))
          (conflicts.mapM (settle means project)) :=
        Keeps.mapM fun c _ => keeps_settle (fun _ _ _ => rfl) (fun s => hforced s.runner s.tree) c
      have hsame := hkeeps s
      rw [hsettle] at hsame
      obtain ⟨settled, c, rest, u, rfl, hsettled, hc⟩ := exists_of_mapM_error hsettle
      refine ⟨hsame, settled, c, rest, rfl, fun b hb => ?_, settle_eq_error hc⟩
      obtain ⟨v, found, w, hfound⟩ := hsettled b hb
      exact ⟨found, yields_settle b v found (by rw [hfound])⟩
    · have hfails := fails_patch (P := (¬ ·.Aborts)) hmanifest hcommand _ _ _ u e
        (congrArg Prod.fst hpatch)
      exact absurd habort hfails

/-- Of three conflicts the first is settled by a pin, the second by a forced installation, and for
    the third the registry has had enough. -/
def crowdedConflicts : List PeerConflict :=
  [⟨"zone-kit", "zone.js", "requires \"~0.11\", would install \"0.12.0\""⟩,
    ⟨"form-kit", "forms", "missing"⟩,
    ⟨"ngx-pipes", "rxjs", "requires \"^6\", would install \"7.8.0\""⟩]

def crowdedMeans : Means Nat where
  settings := {}
  runner := fun count tree _ _ => (.ok {}, count + 1, tree)
  registry := Registry.Snapshot.registry
    { documents := [("zone-kit", { name := "zone-kit" })], failures := [("ngx-pipes", 429)] }

theorem repair_aborts_crowded :
    ((repair crowdedMeans ⟨"app"⟩ (.incompatiblePeers crowdedConflicts)).start peerSession).1 =
        .error (.lookup (.rateLimited "ngx-pipes")) ∧
      ((repair crowdedMeans ⟨"app"⟩ (.incompatiblePeers crowdedConflicts)).start
          peerSession).2.tree.content? (manifestOf ⟨"app"⟩) =
        some (.ofString peerManifest.render) := by
  have herror : ((repair crowdedMeans ⟨"app"⟩ (.incompatiblePeers crowdedConflicts)).start
      peerSession).1 = .error (.lookup (.rateLimited "ngx-pipes")) := by
    decide +kernel
  have hbefore : peerSession.tree.content? (manifestOf ⟨"app"⟩) =
      some (.ofString peerManifest.render) := by
    decide +kernel
  obtain ⟨hsame, -⟩ := repair_aborts (fun _ _ => rfl) (Prod.ext herror rfl) (.lookup _)
  exact ⟨herror, hsame.trans hbefore⟩

end
end Upgrade
end RouterShift
