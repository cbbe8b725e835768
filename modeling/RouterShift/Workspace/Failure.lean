import RouterShift.Package.Manifest
import RouterShift.TypeScript.SourceFile
import RouterShift.Workspace.Tree

/-! Why work on a workspace fails: what was being done, and the cause. -/

namespace RouterShift.Workspace

/-- What went wrong in a workspace. -/
inductive Failure
  | tree (cause : TreeError)
  | listing (root : Path) (cause : TreeError)
  | listingProjects (cause : TreeError)
  | listingSources (cause : TreeError)
  | parsing (path : Path) (cause : TypeScript.SourceError)
  | rewriting (className : String) (path : Path) (cause : EditError)
  | splicing (path : Path) (cause : TypeScript.SourceError)
  | hooking (path : Path) (cause : TypeScript.SourceError)
  | writing (path : Path) (cause : TreeError)
  /-- The Angular workspace file is no JSON. -/
  | projectFile
  | noManifest
  | manifest (cause : ManifestError)
  | missingRouter
  deriving Repr, DecidableEq

/-- What was being done, then the cause. -/
def Failure.message : Failure → String
  | tree cause => cause.message
  | listing root cause => s!"list files under {root.text}: {cause.message}"
  | listingProjects cause => s!"look for project.json files: {cause.message}"
  | listingSources cause => s!"list source files: {cause.message}"
  | parsing path cause => s!"parse {path.text}: {cause.message}"
  | rewriting className path cause =>
    s!"rewrite template of {className} in {path.text}: {cause.message}"
  | splicing path cause => s!"splice template into {path.text}: {cause.message}"
  | hooking path cause => s!"migrate {Vocabulary.paramsHook} in {path.text}: {cause.message}"
  | writing path cause => s!"write migrated {path.text}: {cause.message}"
  | projectFile => "parse angular.json"
  | noManifest => "no package.json at the workspace root"
  | manifest cause => cause.message
  | missingRouter => s!"No {Vocabulary.routerPackage} detected"

/-- The file that declares what a package needs. -/
def manifestPath : Path := ⟨"package.json"⟩

/-- The manifest at the root of a workspace. -/
def Tree.manifest (t : Tree) : Except Failure Manifest :=
  match t.read manifestPath with
  | none => .error .noManifest
  | some text => (Manifest.parse manifestPath text).mapError .manifest

/-- Paths in order, each once, in the spelling that came first. -/
def insertPath (p : Path) : List Path → List Path
  | [] => [p]
  | q :: rest =>
    match p.order q with
    | .lt => p :: q :: rest
    | .eq => q :: rest
    | .gt => q :: insertPath p rest

/-- The set of some paths. -/
def pathSet (paths : List Path) : List Path := paths.foldl (fun set p => insertPath p set) []

end RouterShift.Workspace
