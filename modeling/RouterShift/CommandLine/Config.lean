import RouterShift.Toml.Reader
import RouterShift.Upgrade.Settings
import RouterShift.Disk.Entry

/-! The configuration file of a workspace and what the command line may put in its place. Every
    section and every key may be left out; keys that are not known are passed over. -/

namespace RouterShift

/-- What a configuration file says. -/
structure Config where
  upgrade : Upgrade.Settings := {}
  /-- Where packages go when no target is given. -/
  targetRoot : Path := ({} : Upgrade.CheckoutSettings).targetRoot
  /-- The projects to migrate; when there are none they are looked for. -/
  projects : List Path := []
  /-- Workspaces that do not use the old router are refused. -/
  requiresRouter : Bool := true
  deriving Repr, DecidableEq

/-- Why there is no configuration. -/
inductive ConfigError
  | invalid
  | unreadable (path : Path)
  | invalidFile (path : Path)
  deriving Repr, DecidableEq

def ConfigError.message : ConfigError → String
  | invalid => "invalid TOML"
  | unreadable path => s!"read config file {path.text}"
  | invalidFile path => s!"parse config file {path.text}: invalid TOML"

namespace Config

open Toml (Value)

/-! ### Reading -/

def text? : Value → Option String
  | .text s => some s
  | _ => none

def flag? : Value → Option Bool
  | .scalar (.boolean b) => some b
  | _ => none

/-- A natural number of 32 bits. -/
def count? : Value → Option Nat
  | .scalar (.integer n) => if 0 ≤ n && n < (Nat.pow 2 32 : Nat) then some n.toNat else none
  | _ => none

def texts? : Value → Option (List String)
  | .array items => items.mapM text?
  | _ => none

/-- The values of the known keys of a section, in the order of the keys; an array gives them by
    their places. -/
def members? (keys : List String) : Value → Option (List (Option Value))
  | .table entries => some (keys.map fun key => entries.lookup key)
  | .array items => some ((List.range keys.length).map (items[·]?))
  | _ => none

/-- A value where there is one, or the default. -/
def withDefault {α : Type} (default : α) (decode : Value → Option α) : Option Value → Option α
  | none => some default
  | some v => decode v

/-- The section that says how packages are updated. -/
def repair? (v : Value) : Option Upgrade.Settings := do
  let d : Upgrade.Settings := {}
  match ← members? ["package", "update_packages", "max_attempts", "registry_url"] v with
  | [package, updatePackages, maxAttempts, registryUrl] =>
    return {
      package := ← withDefault d.package text? package
      updatePackages := ← withDefault d.updatePackages texts? updatePackages
      maxAttempts := ← withDefault d.maxAttempts count? maxAttempts
      registryUrl := ← withDefault d.registryUrl text? registryUrl }
  | _ => none

/-- The section that says where packages go. -/
def targetRoot? (v : Value) : Option Path := do
  match ← members? ["target_root"] v with
  | [root] => withDefault ({} : Config).targetRoot (fun v => (text? v).map (⟨·⟩)) root
  | _ => none

/-- The section that says which projects are migrated: which, and if the router is required. -/
def projects? (v : Value) : Option (List Path × Bool) := do
  match ← members? ["projects", "require_dependency"] v with
  | [projects, required] =>
    let projects ← withDefault [] texts? projects
    return (projects.map (⟨·⟩), ← withDefault true flag? required)
  | _ => none

/-- A configuration from its text. -/
def parse? (text : String) : Option Config := do
  let sections ← Toml.parse? text
  let (projects, requiresRouter) ←
    withDefault ([], true) projects? (sections.lookup "ui_router")
  return {
    upgrade := ← withDefault {} repair? (sections.lookup "repair")
    targetRoot := ← withDefault ({} : Config).targetRoot targetRoot? (sections.lookup "migrate")
    projects
    requiresRouter }

def parse (text : String) : Except ConfigError Config :=
  match parse? text with
  | some c => .ok c
  | none => .error .invalid

/-- The name of the configuration file. -/
def fileName : String := "ngmigrate.toml"

/-- The configuration of a directory: that of its file, or the default when there is none. -/
def load (tree : Entry) (directory : Path) : Except ConfigError Config :=
  let path := directory.join fileName
  match tree.locate? [] path, tree.readText? [] path with
  | none, _ => .ok {}
  | some _, none => .error (.unreadable path)
  | some _, some text => (parse text).mapError fun _ => .invalidFile path

/-! ### The command line's part -/

/-- What the command line may say about updates. -/
structure Overrides where
  maxAttempts : Option Nat := none
  registryUrl : Option String := none
  deriving Repr, DecidableEq

/-- The settings of updates; the command line's go first. -/
def settings (c : Config) (o : Overrides) : Upgrade.Settings :=
  { c.upgrade with
    maxAttempts := o.maxAttempts.getD c.upgrade.maxAttempts
    registryUrl := o.registryUrl.getD c.upgrade.registryUrl }

/-- What the command line says about a checkout. -/
structure Order where
  repositoryUrl : String := ""
  target : Option Path := none
  packageName : Option String := none
  skipsRouter : Bool := false
  overrides : Overrides := {}
  deriving Repr, DecidableEq

/-- The settings of a checkout below a directory. -/
def checkout (c : Config) (directory : Path) (o : Order) : Upgrade.CheckoutSettings where
  repositoryUrl := o.repositoryUrl
  target := o.target
  packageName := o.packageName
  workDirectory := directory
  targetRoot := c.targetRoot
  migratesRouter := !o.skipsRouter
  upgrade := c.settings o.overrides

/-- The projects to migrate: those of the command line, if it names any. -/
def chosenProjects (c : Config) (named : List Path) : List Path :=
  if named.isEmpty then c.projects else named

/-- The migration asks for the router first. -/
def checksRouter (c : Config) (skips : Bool) : Bool := c.requiresRouter && !skips

end Config
end RouterShift
