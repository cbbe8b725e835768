import RouterShift.Package.Name
import RouterShift.Workspace.Failure

/-! Moving a dependency into the maintenance scope: in the manifest, and wherever a source names
    it. -/

namespace RouterShift.Workspace

/-- What came of a rename. -/
structure Renaming where
  newName : String
  manifestUpdated : Bool
  /-- The sources that named the package. -/
  sources : List Path
  deriving Repr, DecidableEq

/-- The version a package gets in the maintenance scope when none is asked for. -/
def defaultMaintenanceVersion : String := "1.0.0"

/-- One source with the package name replaced; its path joins the list when that changed it. -/
def renameSource (old new : String) (state : Tree × List Path) (path : Path) :
    Except Failure (Tree × List Path) :=
  let (t, done) := state
  match t.read path with
  | none => .ok (t, done)
  | some before =>
    let after := PackageName.replace before old new
    if after = before then .ok (t, done)
    else ((t.write path after).mapError .tree).map fun t => (t, done ++ [path])

/-- A package renamed in the manifest and in all sources. -/
def rename (t : Tree) (package version : String) : Except Failure (Tree × Renaming) := do
  let newName := PackageName.maintenance package
  let manifest ← t.manifest
  let (renamed, wasThere) := manifest.renameDependency package newName version
  let updated := newName != package && wasThere
  let t ← if updated then (t.write manifestPath renamed.render).mapError .tree else .ok t
  let paths ← (t.list ⟨"."⟩).mapError .listingSources
  let sources := paths.filter fun p => p.extension? = some "ts"
  let (t, done) ← sources.foldlM (renameSource package newName) (t, [])
  return (t, ⟨newName, updated, done⟩)

end RouterShift.Workspace
