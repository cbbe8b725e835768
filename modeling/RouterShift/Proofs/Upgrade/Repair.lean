import RouterShift.Proofs.Upgrade.Work
import RouterShift.Upgrade.Majors

/-! What a repair may do. It speaks, runs commands of npm and patches the manifest with updates that
    its diagnosis prescribes, and it does nothing else: a relation that these three respect is
    respected by every repair. Nor does a repair ever run out of attempts; that is only for the
    climb to say. -/

namespace RouterShift.Upgrade
open Work

variable {ρ : Type} {means : Means ρ} {project : Path} {R : Session ρ → Session ρ → Prop}

/-- What a diagnosis calls for: the ranges it reports, or an update that ends a conflict it
    reports. -/
def Diagnosis.Prescribes (registry : Registry) : Diagnosis → DependencyUpdate → Prop
  | .npmVersion _, _ => False
  | .unmetPeers updates, u => u ∈ updates
  | .incompatiblePeers conflicts, u => ∃ c ∈ conflicts, pin? registry c = .ok (some u)

/-- What settles a conflict is the update that ends it. -/
theorem yields_settle (c : PeerConflict) :
    Yields (fun found => pin? means.registry c = .ok found) (settle means project c) := by
  refine (Yields.any _).bind fun _ _ => ?_
  have hpin : Yields (fun found => pin? means.registry c = .ok found)
      (causing .lookup (MonadExcept.ofExcept (pin? means.registry c)) : Work ρ RepairError _) :=
    (Yields.ofExcept fun _ h => h).causing _
  refine hpin.bind fun found hfound => ?_
  cases found with
  | some update => exact Yields.pure hfound
  | none => exact (Yields.any _).bind fun _ _ => Yields.pure hfound

section
variable
  (hsay : ∀ s tone text, R s (noted (.said tone text) s))
  (hnpm : ∀ s line, "npm".toList <+: line.toList → R s (afterCommand means.runner line project s))

include hsay in
theorem keeps_say (tone : Tone) (text : String) :
    Keeps R (say tone text : Work ρ RepairError Unit) := fun s => hsay s tone text

include hnpm in
theorem keeps_npm {line : String} (h : "npm".toList <+: line.toList)
    (cause : CommandFailure → RepairError) :
    Keeps R (causing cause (command means.runner line project)) :=
  (Keeps.command fun s => hnpm s line h).causing cause

variable [IsPreorder (Session ρ) R]

include hsay in
/-- The one command that may run to settle a conflict is a forced installation. -/
theorem keeps_settle (hforced : ∀ s, R s (afterCommand means.runner "npm install -f" project s))
    (c : PeerConflict) : Keeps R (settle means project c) := by
  refine (keeps_say hsay _ _).bind fun _ => ?_
  refine ((Keeps.ofExcept _).causing _).bind fun found => ?_
  cases found with
  | some update => exact Keeps.pure _
  | none =>
    have hforce : Keeps R (forceInstall means project c) :=
      (keeps_say hsay _ _).bind fun _ => (Keeps.command hforced).causing _
    exact hforce.bind fun _ => Keeps.pure _

include hsay in
/-- A patch keeps what saying something and writing the manifest keep. -/
theorem keeps_patchManifest
    (hwrite : ∀ s content tree, s.tree.writeAt? [] (manifestOf project) content = some tree →
      R s { s with tree := tree }) (updates : List DependencyUpdate) :
    Keeps R (patchManifest project updates : Work ρ RepairError Unit) := by
  have hload : Keeps R (loadManifest (manifestOf project) : Work ρ ManifestError Manifest) :=
    Keeps.of_eq fun s => by rw [start_loadManifest]
  have hsave (m : Manifest) : Keeps R
      (saveManifest (manifestOf project) m : Work ρ ManifestError Unit) := by
    intro s
    rw [start_saveManifest]
    split
    · exact refl_of R s
    · next tree htree => exact hwrite s _ tree htree
  exact ((hload.bind fun m => hsave _).causing _).bind fun _ => keeps_say hsay _ _

include hsay hnpm in
/-- Every repair keeps what saying something, a command of npm and a patch that the diagnosis
    prescribes keep. -/
theorem keeps_repair (diagnosis : Diagnosis)
    (hpatch : ∀ updates, (∀ u ∈ updates, diagnosis.Prescribes means.registry u) →
      Keeps R (patchManifest project updates : Work ρ RepairError Unit)) :
    Keeps R (repair means project diagnosis) := by
  cases diagnosis with
  | npmVersion required =>
    cases required with
    | none => exact Keeps.pure _
    | some version =>
      refine (keeps_say hsay _ _).bind fun _ => keeps_npm hnpm ?_ _
      simp only [String.toList_append, toString]
      exact (List.prefix_append _ _).trans (List.prefix_append _ _)
  | unmetPeers updates =>
    refine (Keeps.forM fun u _ => keeps_say hsay _ _).bind fun _ => ?_
    cases updates.isEmpty with
    | true => exact Keeps.pure _
    | false =>
      refine (hpatch updates fun u hu => hu).bind fun _ => ?_
      exact (keeps_say hsay _ _).bind fun _ => keeps_npm hnpm (by decide) _
  | incompatiblePeers conflicts =>
    have hforced (s : Session ρ) : R s (afterCommand means.runner "npm install -f" project s) :=
      hnpm s _ (by decide)
    refine (Keeps.mapM fun c _ => keeps_settle hsay hforced c).bind_of
      (Yields.mapM fun c _ => yields_settle c) fun found hfound => ?_
    have hpinned : ∀ u ∈ found.filterMap id,
        (Diagnosis.incompatiblePeers conflicts).Prescribes means.registry u := by
      intro u hu
      obtain ⟨o, ho, rfl⟩ := List.mem_filterMap.1 hu
      obtain ⟨c, hc, hco⟩ := hfound _ ho
      exact ⟨c, hc, hco⟩
    dsimp only
    cases (found.filterMap id).isEmpty with
    | true => exact Keeps.pure _
    | false =>
      refine (hpatch (found.filterMap id) hpinned).bind fun _ => ?_
      exact (keeps_say hsay _ _).bind fun _ => keeps_npm hnpm (by decide) _

end

/-! ### Failures of a repair -/

/-- A patch, and the installation after it, fails of the manifest or of the command. -/
theorem fails_patch {P : RepairError → Prop} (hmanifest : ∀ cause, P (.manifest cause))
    (hcommand : ∀ cause, P (.command cause)) (updates : List DependencyUpdate)
    (text line : String) :
    Fails P (if updates.isEmpty then pure () else do
      patchManifest project updates
      say .warning text
      causing .command (command means.runner line project)) := by
  cases updates.isEmpty with
  | true => exact Fails.pure _
  | false =>
    have hpatch : Fails P (patchManifest project updates : Work ρ RepairError Unit) :=
      (Fails.causing hmanifest _).bind fun _ => Fails.say _ _
    exact hpatch.bind fun _ => (Fails.say _ _).bind fun _ => Fails.causing hcommand _

/-- Beside a patch and a command, a repair fails of nothing but a conflict that it cannot settle. -/
theorem fails_repair_of {P : RepairError → Prop} (hmanifest : ∀ cause, P (.manifest cause))
    (hcommand : ∀ cause, P (.command cause)) (diagnosis : Diagnosis)
    (hsettle : ∀ conflicts, diagnosis = .incompatiblePeers conflicts →
      ∀ c, Fails P (settle means project c)) :
    Fails P (repair means project diagnosis) := by
  cases diagnosis with
  | npmVersion required =>
    cases required with
    | none => exact Fails.pure _
    | some version => exact (Fails.say _ _).bind fun _ => Fails.causing hcommand _
  | unmetPeers updates =>
    exact (Fails.forM fun u => Fails.say _ _).bind fun _ => fails_patch hmanifest hcommand _ _ _
  | incompatiblePeers conflicts =>
    refine (Fails.mapM (hsettle conflicts rfl)).bind fun found => ?_
    exact fails_patch hmanifest hcommand _ _ _

/-- Not for want of attempts. -/
def Unspent (e : RepairError) : Prop := e.ending = .failed

theorem fails_settle (c : PeerConflict) :
    Fails Unspent (settle means project c) := by
  refine (Fails.say _ _).bind fun _ => (Fails.causing (fun _ => by rfl) _).bind fun found => ?_
  cases found with
  | some update => exact Fails.pure _
  | none =>
    have hforce : Fails Unspent (forceInstall means project c) :=
      (Fails.say _ _).bind fun _ => Fails.causing (fun _ => by rfl) _
    exact hforce.bind fun _ => Fails.pure _

/-- No repair fails for want of attempts. -/
theorem fails_repair (diagnosis : Diagnosis) :
    Fails Unspent (repair means project diagnosis) :=
  fails_repair_of (fun _ => by rfl) (fun _ => by rfl) diagnosis fun _ _ => fails_settle

end RouterShift.Upgrade
