import RouterShift.Package.Name
import RouterShift.Package.Registry
import RouterShift.Path

/-! What an upgrade can be told: which package sets the pace, how patient to be, where a checkout
    comes from and where it goes. -/

namespace RouterShift.Upgrade

/-- How a package is brought from one major version to the next. -/
structure Settings where
  /-- The package whose major version counts. -/
  package : String := "@angular/core"
  /-- The packages that every step updates. -/
  updatePackages : List String := ["@angular/cli", "@angular/core"]
  /-- Failures after which the upgrade is given up. -/
  maxAttempts : Nat := 8
  registryUrl : String := Registry.defaultUrl
  deriving Repr, DecidableEq

/-- The command that updates to one major version. -/
def Settings.updateCommand (s : Settings) (major : Nat) : String :=
  let targets := " ".intercalate (s.updatePackages.map fun p => s!"{p}@^{major}.0.0")
  s!"npx ng update {targets} --allow-dirty"

/-- What is checked out, and where it is put in the end. -/
structure CheckoutSettings where
  repositoryUrl : String := ""
  target : Option Path := none
  packageName : Option String := none
  workDirectory : Path := ⟨"."⟩
  /-- Where packages go when no target is given. -/
  targetRoot : Path := ⟨"angular-pkgs"⟩
  migratesRouter : Bool := true
  upgrade : Settings := {}
  deriving Repr, DecidableEq

/-- The directory to look for in the clone: the one asked for, or the repository's own name. -/
def CheckoutSettings.package (s : CheckoutSettings) : String :=
  s.packageName.getD (PackageName.ofRepositoryUrl s.repositoryUrl)

/-- Where the package is put. -/
def CheckoutSettings.destination (s : CheckoutSettings) : Path :=
  match s.target with
  | some target => s.workDirectory.join target.text
  | none => (s.workDirectory.join s.targetRoot.text).join s.package

end RouterShift.Upgrade
