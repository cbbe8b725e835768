import RouterShift.CommandLine.Arguments
import RouterShift.Console.Notice
import RouterShift.Console.Progress
import RouterShift.Patch.Unified
import RouterShift.Shell.Run
import RouterShift.Upgrade.Checkout

/-! The program as a function: from a command line and what surrounds it to what is shown, the
    result, and the files after it. -/

namespace RouterShift.CommandLine

/-- What a command line finds around it. -/
structure Surroundings where
  tree : Entry
  /-- The directory it was given in. -/
  directory : Path
  /-- Scripts that commands are carried out by, and the variables that they see. -/
  programs : Shell.Programs := []
  environment : List (String × String) := []
  /-- The registry to ask when the command line names none. -/
  registryUrl : Option String := none
  registryAt : String → Registry := Registry.unreachable
  /-- Where clones are kept for the time being. -/
  clone : Path
  color : Bool := false

/-- What a command line comes to. -/
structure Result where
  exitCode : Nat
  stdout : String := ""
  stderr : String := ""
  tree : Entry

/-- Why a command failed. -/
inductive Trouble
  | config (cause : ConfigError)
  | router (cause : Workspace.Failure)
  | roots (cause : Workspace.Failure)
  | migration (cause : Workspace.Failure)
  | rename (cause : Workspace.Failure)
  | repository (cause : Registry.RepositoryError)
  | checkout (cause : Upgrade.CheckoutError)
  deriving Repr, DecidableEq

def Trouble.message : Trouble → String
  | config cause => s!"load {Config.fileName} config: {cause.message}"
  | router cause => cause.message
  | roots cause => s!"discover project roots: {cause.message}"
  | migration cause => s!"migrate ui-router usages: {cause.message}"
  | rename cause => cause.message
  | repository cause => cause.message
  | checkout cause => cause.message

def versionText : String := "ngmigrate 0.1.0\n"

/-- The forms of the command line. -/
def usage : String := Console.lines [
  "ngmigrate [--root DIR] warn PACKAGE",
  "ngmigrate [--root DIR] migrate repo URL [TARGET] [--package-name NAME] [UPGRADE OPTIONS]",
  "ngmigrate [--root DIR] migrate npm PACKAGE [TARGET] [UPGRADE OPTIONS]",
  "ngmigrate [--root DIR] ui-router [--project DIR]... [--dry-run] [--skip-dependency-check]",
  "ngmigrate [--root DIR] rename PACKAGE [--version RANGE]",
  "upgrade options: [--max-attempts N] [--registry URL] [--no-ui-router]"]

namespace Surroundings

/-- What runs the commands of an upgrade: the shell. -/
def runner (s : Surroundings) : Upgrade.Runner Unit := fun _ tree command directory =>
  let (outcome, tree) := Shell.execute s.programs s.environment tree command directory
  (outcome, (), tree)

/-- A command that failed without having changed anything. -/
def failed (s : Surroundings) (t : Trouble) : Result :=
  { exitCode := 1, stderr := t.message ++ "\n", tree := s.tree }

/-- A checkout, and what is shown of it. -/
def checkout (s : Surroundings) (settings : Upgrade.CheckoutSettings) : Result :=
  let registry := s.registryAt settings.upgrade.registryUrl
  let (outcome, session) := (Upgrade.checkout settings s.runner registry s.clone).start
    { tree := s.tree, runner := () }
  let stdout := Console.output s.color session.trace
  let stderr := Console.errors s.color session.trace
  match outcome with
  | .ok _ => { exitCode := 0, stdout, stderr, tree := session.tree }
  | .error e =>
    { exitCode := 1, stdout, stderr := stderr ++ (Trouble.checkout e).message ++ "\n"
      tree := session.tree }

/-- The package of an order checked out from where the registry says its sources are. -/
def checkoutPackage (s : Surroundings) (config : Config) (root : Path) (package : String)
    (order : Config.Order) : Result :=
  match (s.registryAt (config.settings order.overrides).registryUrl).repositoryUrl package with
  | .error e => s.failed (.repository e)
  | .ok url => s.checkout (config.checkout root { order with repositoryUrl := url })

/-- The workspace migrated to the new router, or a patch of what that would change. -/
def migrateRouter (s : Surroundings) (config : Config) (root : Path) (projects : List Path)
    (dryRun skipsCheck : Bool) : Except Trouble Result := do
  let t := Workspace.Tree.disk s.tree root
  if config.checksRouter skipsCheck then (Workspace.requireRouter t).mapError .router
  let chosen := config.chosenProjects projects
  let roots ← if chosen.isEmpty then (Workspace.roots t).mapError .roots else .ok chosen
  let (after, report) ← (Workspace.migrate t roots dryRun).mapError .migration
  let tree := match after with
    | .disk tree _ => tree
    | .memory .. => s.tree
  return { exitCode := 0, stdout := if dryRun then Patch.render report.changes else "", tree }

/-- A dependency moved into the maintenance scope, and what that changed. -/
def rename (s : Surroundings) (root : Path) (package version : String) :
    Except Trouble Result := do
  let (after, r) ← (Workspace.rename (.disk s.tree root) package version).mapError .rename
  let tree := match after with
    | .disk tree _ => tree
    | .memory .. => s.tree
  let moved := if r.manifestUpdated then [s!"package.json: {package} -> {r.newName}"] else []
  return {
    exitCode := 0
    stdout := Console.lines ((r.sources.map fun p => s!"updated {p.text}") ++ moved), tree }

/-- What a command comes to in its directory. -/
def run (s : Surroundings) (i : Invocation) : Result :=
  let root := s.directory.join i.root.text
  let settled (r : Except Trouble Result) : Result :=
    match r with
    | .ok r => r
    | .error t => s.failed t
  let configured (f : Config → Except Trouble Result) : Result :=
    settled (((Config.load s.tree root).mapError .config).bind f)
  match i.command with
  | .warn package =>
    { exitCode := 0, stdout := Console.maintenanceNotice s.color package ++ "\n", tree := s.tree }
  | .migrateRepository order => configured fun c => .ok (s.checkout (c.checkout root order))
  | .migratePackage package order =>
    configured fun c => .ok (s.checkoutPackage c root package order)
  | .migrateRouter projects dryRun skipsCheck =>
    configured fun c => s.migrateRouter c root projects dryRun skipsCheck
  | .rename package version => settled (s.rename root package version)

/-- What a command line comes to. -/
def answer (s : Surroundings) (arguments : List String) : Result :=
  match Request.ofArguments s.registryUrl arguments with
  | .run i => s.run i
  | .showVersion => { exitCode := 0, stdout := versionText, tree := s.tree }
  | .showHelp => { exitCode := 0, stdout := usage, tree := s.tree }
  | .misused => { exitCode := 2, stderr := usage, tree := s.tree }

end Surroundings
end RouterShift.CommandLine
