import RouterShift.Package.Registry
import RouterShift.Upgrade.Diagnosis
import RouterShift.Upgrade.Session
import RouterShift.Upgrade.Settings

/-! What is done about a failed update. Each diagnosis has its repair: another npm is installed,
    ranges of peers are written into the manifest, or a version that fits is looked up in the
    registry. A repair that cannot be carried through fails, and the upgrade with it; until it is
    known that every conflict has an answer, the manifest is not touched. -/

namespace RouterShift.Upgrade

/-- Why a package could not be brought to its latest major version. -/
inductive RepairError
  /-- A complaint without a diagnosis. -/
  | unhandled (text : String)
  | exhausted (attempts : Nat) (lastFailure : String)
  | undeclared (manifest : Path) (package : String)
  | noLatestMajor (package : String)
  | forcedInstall (conflict : PeerConflict) (failure : CommandFailure)
  | lookup (cause : RegistryError)
  | command (cause : CommandFailure)
  | manifest (cause : ManifestError)
  deriving Repr, DecidableEq

namespace RepairError

/-- The error without its cause. -/
def summary : RepairError → String
  | unhandled text => s!"update failed with an unhandled error: {text}"
  | exhausted attempts _ => s!"update failed after reaching maximum attempts ({attempts})"
  | undeclared path package => s!"{path.text} does not declare a version of {package}"
  | noLatestMajor package => s!"the registry's latest {package} has no major version"
  | forcedInstall c f =>
    s!"unable to extract a version for {c.package} ({c.detail}); forced install failed: "
      ++ Text.trimBlank f.diagnostic
  | lookup _ => "registry lookup failed"
  | command cause => cause.message
  | manifest cause => cause.message

/-- The error and its cause. -/
def message : RepairError → String
  | lookup cause => s!"registry lookup failed: {cause.message}"
  | e => e.summary

end RepairError

/-- What an upgrade works with. -/
structure Means (ρ : Type) where
  settings : Settings
  runner : Runner ρ
  registry : Registry

section
variable {ρ : Type}

open Work

/-- The manifest of a project. -/
def manifestOf (project : Path) : Path := project.join "package.json"

/-- Updates written into the manifest of a project, where it declares what they name. -/
def patchManifest (project : Path) (updates : List DependencyUpdate) :
    Work ρ RepairError Unit := do
  causing .manifest do
    let m ← loadManifest (manifestOf project)
    saveManifest (manifestOf project) (m.applyUpdates updates).1
  say .success "package.json updated with new versions."

/-- An update that ends a conflict: the package in a version that accepts what would be installed
    of its peer, or else the peer in that very version. -/
def pin? (registry : Registry) (c : PeerConflict) :
    Except RegistryError (Option DependencyUpdate) :=
  match c.clash? with
  | none => .ok none
  | some clash =>
    (registry.compatibleVersion? c.package c.peer clash.wouldInstall).map fun found =>
      some <| match found with
        | some version => ⟨c.package, version⟩
        | none => ⟨c.peer, clash.wouldInstall⟩

/-- Installs whatever the conflict is. -/
def forceInstall (means : Means ρ) (project : Path) (c : PeerConflict) :
    Work ρ RepairError Unit := do
  say .failure "Unable to find compatible version. Trying to force the install"
  causing (.forcedInstall c) (command means.runner "npm install -f" project)

/-- The update that ends a conflict; where the complaint names no version, the installation is
    forced and there is none. -/
def settle (means : Means ρ) (project : Path) (c : PeerConflict) :
    Work ρ RepairError (Option DependencyUpdate) := do
  say .failure s!"Found incompatible peer dependency issue: {c.package} {c.peer} {c.detail}"
  match ← causing .lookup (MonadExcept.ofExcept (pin? means.registry c)) with
  | some update => return some update
  | none =>
    forceInstall means project c
    return none

/-- Does what a diagnosis calls for. -/
def repair (means : Means ρ) (project : Path) : Diagnosis → Work ρ RepairError Unit
  | .npmVersion none => return ()
  | .npmVersion (some version) => do
    say .warning s!"Updating global npm to version {version} to meet Angular CLI requirements."
    causing .command (command means.runner s!"npm install --global npm@{version}" project)
  | .unmetPeers updates => do
    updates.forM fun u => say .failure s!"Found peer dependency issue: {u.name} {u.range}"
    if updates.isEmpty then return ()
    patchManifest project updates
    say .warning "Attempting to fix peer dependencies and retrying."
    causing .command (command means.runner "npm install" project)
  | .incompatiblePeers conflicts => do
    let updates := (← conflicts.mapM (settle means project)).filterMap id
    if updates.isEmpty then return ()
    patchManifest project updates
    say .warning "Attempting to fix incompatible peer dependencies and retrying."
    causing .command (command means.runner "npm install -f" project)

end
end RouterShift.Upgrade
