import RouterShift.Disk.Copy
import RouterShift.Disk.Search
import RouterShift.TypeScript.Grammar
import RouterShift.Upgrade.Majors
import RouterShift.Workspace.Plan
import RouterShift.Workspace.Roots

/-! A package checked out, brought up to date and put in its place. The work is done on a clone of its
    repository, step after step; the first step that fails ends it, and only the last step writes
    anything outside the clone. Whatever becomes of the steps, the clone is removed in the end. -/

namespace RouterShift.Upgrade

/-- The steps of a checkout, in order; the migration is left out where it does not apply. -/
inductive Step
  | clone
  | install
  | update
  | locate
  | migrate
  | copy
  | cleanUp
  deriving Repr, DecidableEq

def Step.label : Step → String
  | clone => "Cloning repository"
  | install => "Installing NPM packages"
  | update => "Updating Angular versions"
  | locate => "Locating package directory"
  | migrate => "Migrating UI-Router to Angular Router"
  | copy => "Copying updated package to target location"
  | cleanUp => "Cleaning up temporary files"

/-- What a checkout failed of. -/
inductive Obstacle
  | command (cause : CommandFailure)
  | repair (cause : RepairError)
  | search (cause : Disk.SearchError)
  | workspace (cause : Workspace.Failure)
  | copy (cause : Disk.CopyError)
  | removal (clone : Path)
  deriving Repr, DecidableEq

def Obstacle.message : Obstacle → Option String
  | command cause => some cause.message
  | repair cause => some cause.message
  | search cause => some cause.message
  | workspace cause => some cause.message
  | copy cause => cause.message
  | removal clone => some s!"remove temporary clone {clone.text}"

/-- Why there is no checkout: the step that failed, if it was in one, and what of. -/
structure CheckoutError where
  step : Option Step
  obstacle : Obstacle
  deriving Repr, DecidableEq

/-- The step in lower case, then what it failed of, as far as there are words for either. -/
def CheckoutError.message (e : CheckoutError) : String :=
  let step := e.step.map fun s => String.ofList (s.label.toList.map Text.lower)
  ": ".intercalate ([step, e.obstacle.message].filterMap id)

/-- A package that was put in its place. -/
structure Checkout where
  package : String
  target : Path
  climb : Climb
  /-- The migration, if the clone used the old router. -/
  migration : Option Report
  deriving Repr, DecidableEq

section
variable {ρ α : Type}

open Work

/-- A step of a checkout. -/
def perform (s : Step) (work : Work ρ Obstacle α) : Work ρ CheckoutError α :=
  step s.label (causing (fun o => ⟨some s, o⟩) work)

/-- The clone uses the old router. -/
def usesRouter (clone : Path) : Work ρ Obstacle Bool := do
  match Workspace.requireRouter (.disk (← get).tree clone) with
  | .ok () => return true
  | .error .missingRouter => return false
  | .error e => throw (.workspace e)

/-- The clone migrated to the new router. -/
def migrateClone (clone : Path) : Work ρ Obstacle Report := causing .workspace do
  let s ← get
  let before := Workspace.Tree.disk s.tree clone
  let (after, report) ← MonadExcept.ofExcept do
    Workspace.migrate before (← Workspace.roots before) false
  match after with
  | .disk tree _ => set { s with tree := tree }
  | .memory .. => pure ()
  return report

/-- A directory of the clone copied to where the package belongs. -/
def copyOut (source target : Path) : Work ρ Obstacle Unit := do
  let s ← get
  let (tree, copied) := Disk.copy s.tree source target
  set { s with tree := tree }
  causing .copy (MonadExcept.ofExcept copied)

/-- The clone made, updated and copied out. -/
def updateClone (settings : CheckoutSettings) (runner : Runner ρ) (registry : Registry)
    (clone : Path) : Work ρ CheckoutError (Climb × Option Report) := do
  let url := settings.repositoryUrl
  perform .clone do
    causing .command
      (command runner s!"git clone \"{url}\" \"{clone.text}\"" settings.workDirectory)
  perform .install do
    causing .command (command runner "npm install" clone)
  let climbed ← perform .update do
    causing .repair (upgrade ⟨settings.upgrade, runner, registry⟩ clone)
  let directory ← perform .locate do
    causing .search (MonadExcept.ofExcept
      (Disk.packageDirectory (← get).tree clone settings.package))
  let applies ←
    if settings.migratesRouter then causing (fun o => ⟨none, o⟩) (usesRouter clone)
    else pure false
  let migration ←
    if applies then some <$> perform .migrate (migrateClone clone) else pure none
  perform .copy (copyOut directory settings.destination)
  return (climbed, migration)

/-- The clone taken off the tree. -/
def removeClone (clone : Path) : Work ρ Obstacle Unit := do
  let s ← get
  match s.tree.names? [] clone, s.tree.locate? [] clone with
  | some names, some (.directory _) => set { s with tree := s.tree.remove names }
  | _, _ => throw (.removal clone)

/-- Checks a package out by way of a clone at the given place. -/
def checkout (settings : CheckoutSettings) (runner : Runner ρ) (registry : Registry)
    (clone : Path) : Work ρ CheckoutError Checkout := do
  say .warning "Starting the Angular package update process..."
  modify fun s => { s with tree := (s.tree.makePath? [] clone).getD s.tree }
  let outcome ← result (updateClone settings runner registry clone)
  match outcome with
  | .ok _ => say .success "Angular package update process completed successfully."
  | .error e => say .failure s!"An error occurred: {e.message}"
  let cleaned ← result (perform .cleanUp (removeClone clone))
  let (climbed, migration) ← MonadExcept.ofExcept outcome
  MonadExcept.ofExcept cleaned
  return ⟨settings.package, settings.destination, climbed, migration⟩

end
end RouterShift.Upgrade
