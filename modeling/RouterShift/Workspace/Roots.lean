import RouterShift.Workspace.Failure

/-! Which directories of a workspace are projects, and whether it uses the router at all. -/

namespace RouterShift.Workspace

open Json (Value Fields)

/-- The workspace depends on the router that is to be replaced. -/
def requireRouter (t : Tree) : Except Failure Unit := do
  let manifest ← t.manifest
  if manifest.hasDependency Vocabulary.routerPackage then return () else throw .missingRouter

/-- A directory, or the workspace root when its path is empty. -/
def directoryOrRoot (p : Path) : Path := if p.text.isEmpty then ⟨"."⟩ else p

/-- The root that a project of an Angular workspace declares, without slashes at its end. -/
def projectRoot? : Value → Option Path
  | .object fields =>
    match Fields.get? fields "root" with
    | some (.string root) =>
      some (directoryOrRoot ⟨String.ofList (Text.dropEnd ['/'] root.toList)⟩)
    | _ => none
  | _ => none

/-- The roots that an Angular workspace declares for its projects. -/
def declaredRoots : Value → List Path
  | .object fields =>
    match Fields.get? fields "projects" with
    | some (.object projects) => pathSet ((projects.map (·.2)).filterMap projectRoot?)
    | _ => []
  | _ => []

/-- The directories that hold a project file. -/
def projectDirectories (paths : List Path) : List Path :=
  let directories := paths.filterMap fun p =>
    if p.fileName? = some "project.json" then
      some (p.parent?.elim ⟨"."⟩ directoryOrRoot)
    else none
  pathSet directories

/-- The project roots of a workspace: those its Angular workspace file declares; if there are none,
    every directory with a project file; if there are none, the root of the workspace. -/
def roots (t : Tree) : Except Failure (List Path) := do
  let declared ← match t.read ⟨"angular.json"⟩ with
    | none => .ok []
    | some text =>
      match Json.parse? text with
      | none => .error .projectFile
      | some v => .ok (declaredRoots v)
  if !declared.isEmpty then return declared
  let paths ← (t.list ⟨"."⟩).mapError .listingProjects
  let found := projectDirectories paths
  return if found.isEmpty then [⟨"."⟩] else found

end RouterShift.Workspace
