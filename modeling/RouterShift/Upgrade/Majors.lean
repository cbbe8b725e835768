import RouterShift.Upgrade.Repair

/-! One major version after the other. The update to a major version is tried until it succeeds;
    between two tries the last failure is repaired. All failures on the way count against one
    allowance, so a stubborn package cannot keep an upgrade going for ever. -/

namespace RouterShift.Upgrade

/-- How an upgrade went that reached the latest major version. -/
structure Climb where
  fromMajor : Nat
  toMajor : Nat
  /-- The major versions that were updated to, in order. -/
  completed : List Nat
  /-- Updates that failed on the way. -/
  attempts : Nat
  deriving Repr, DecidableEq

/-- How an upgrade ends. -/
inductive Ending
  | succeeded
  | failed
  | attemptsExhausted
  deriving Repr, DecidableEq

def RepairError.ending : RepairError → Ending
  | exhausted .. => .attemptsExhausted
  | _ => .failed

def Ending.of {α : Type} : Except RepairError α → Ending
  | .ok _ => .succeeded
  | .error e => e.ending

section
variable {ρ : Type}

open Work

/-- The major versions from `next` to `latest`, with `failed` failures so far: those updated to,
    and the failures in the end. -/
def climb (means : Means ρ) (project : Path) (latest next failed : Nat) :
    Work ρ RepairError (List Nat × Nat) := do
  if _h : latest < next then return ([], failed)
  else
    let label := s!"Updating {means.settings.package} to ^{next}.0.0"
    note (.started label)
    match ← attempt means.runner (means.settings.updateCommand next) project with
    | .ok _ =>
      note (.finished label)
      let (completed, failed) ← climb means project latest (next + 1) failed
      return (next :: completed, failed)
    | .error failure =>
      let text := failure.diagnostic
      match Diagnosis.ofText? text with
      | none => throw (.unhandled text)
      | some diagnosis =>
        if _hf : means.settings.maxAttempts ≤ failed + 1 then throw (.exhausted (failed + 1) text)
        else
          repair means project diagnosis
          climb means project latest next (failed + 1)
termination_by (latest + 1 - next) + (means.settings.maxAttempts - failed)

/-- The major version that a project's manifest declares. -/
def currentMajor (settings : Settings) (project : Path) : Work ρ RepairError Nat := do
  let m ← causing .manifest (loadManifest (manifestOf project))
  match (m.currentRange? settings.package).bind Version.majorOf? with
  | some major => return major
  | none => throw (.undeclared (manifestOf project) settings.package)

/-- The latest major version that the registry knows. -/
def latestMajor (means : Means ρ) : Work ρ RepairError Nat := do
  let found ← causing .lookup (MonadExcept.ofExcept
    (means.registry.latestMajor? means.settings.package))
  match found with
  | some major => return major
  | none => throw (.noLatestMajor means.settings.package)

/-- From the declared major version to the latest. -/
def climbToLatest (means : Means ρ) (project : Path) : Work ρ RepairError Climb := do
  let current ← currentMajor means.settings project
  let latest ← latestMajor means
  let (completed, attempts) ← climb means project latest (current + 1) 0
  return ⟨current, latest, completed, attempts⟩

/-- Brings a project to the latest major version and says how that went. -/
def upgrade (means : Means ρ) (project : Path) : Work ρ RepairError Climb := do
  match ← result (climbToLatest means project) with
  | .ok done =>
    say .success s!"Successfully updated {means.settings.package} to the latest major."
    return done
  | .error e =>
    say .failure s!"Update failed: {e.summary}"
    throw e

end
end RouterShift.Upgrade
