import RouterShift.Markup.Migration
import RouterShift.TypeScript.Component
import RouterShift.TypeScript.ParamsHook
import RouterShift.Workspace.Failure

/-! The migration of a workspace. Sources below the project roots are taken in the order of their
    paths; one that talks to the old router or declares a component is a candidate. Its templates
    are rewritten, inline ones where they stand and external ones in their own files, and then the
    hook is given its route, so that a file is changed once. A plan only reads; applying it writes
    every changed file. -/

namespace RouterShift.Workspace

open TypeScript (SourceFile)

/-- A template that mentions the vocabulary. -/
structure Target where
  className : String
  location : TemplateLocation
  text : String
  deriving Repr, DecidableEq

/-- What has been found so far, and the external templates that are taken care of. -/
structure Draft where
  report : Report := {}
  migratedTemplates : List Path := []

/-- The template of a component as a target: it must be there and mention the vocabulary. -/
def target? (t : Tree) (c : TypeScript.Component) : Option Target := do
  let template ← c.template
  let text ← match template with
    | .inline literal => some literal.value
    | .external _ path => t.read path
  if Vocabulary.isMentionedIn text then some ⟨c.className, template.location, text⟩ else none

section
variable [TypeScript.Reader]

/-- The file with one inline target rewritten. -/
def spliceTarget (path : Path) (file : SourceFile) (target : Target) (migrated : String) :
    Except Failure SourceFile :=
  (file.spliceTemplate target.className migrated).mapError (.splicing path)

/-- One target of a source rewritten: inline in the file, an external one as a change of its own
    unless it is the same as before or another component had it already. -/
def migrateTarget (path : Path) (state : SourceFile × List FileChange × List Path)
    (target : Target) : Except Failure (SourceFile × List FileChange × List Path) := do
  let (file, changes, seen) := state
  let migrated ← (Markup.migrate target.text).mapError (.rewriting target.className path)
  match target.location with
  | .inline =>
    let file ← spliceTarget path file target migrated
    return (file, changes, seen)
  | .external template =>
    if migrated = target.text || seen.any (·.sameAs template) then return state
    return (file, changes ++ [⟨template, .template, target.text, migrated⟩], template :: seen)

/-- The file with its hook given the route. -/
def hookFile (path : Path) (file : SourceFile) : Except Failure SourceFile :=
  file.migrateParamsHook.mapError (.hooking path)

/-- A source that is a candidate, migrated: the changes it leads to, its own first. -/
def migrateSource (t : Tree) (path : Path) (text : String) (draft : Draft) :
    Except Failure Draft := do
  let usesRouter := Text.mentions Vocabulary.routerMarker.toList text.toList
  let declaresComponent := Text.mentions Vocabulary.componentMarker.toList text.toList
  if !usesRouter && !declaresComponent then return draft
  let file ← (SourceFile.parse path text).mapError (.parsing path)
  let targets := if declaresComponent then file.components.filterMap (target? t) else []
  let (spliced, changes, seen) ←
    targets.foldlM (migrateTarget path) (file, [], draft.migratedTemplates)
  let done ← if usesRouter then hookFile path spliced else .ok spliced
  let own := if done.text = text then [] else [⟨path, .source, text, done.text⟩]
  return {
    report := { draft.report with
      candidates := draft.report.candidates + 1
      templateTargets := draft.report.templateTargets + targets.length
      changes := draft.report.changes ++ own ++ changes }
    migratedTemplates := seen }

end

/-- The sources below some roots, below the whole workspace when no root is given. -/
def sources (t : Tree) (roots : List Path) : Except Failure (List Path) := do
  let roots := if roots.isEmpty then [⟨"."⟩] else roots
  let listed ← roots.mapM fun root => (t.list root).mapError (.listing root)
  return pathSet (listed.flatten.filter fun p => p.extension? = some "ts")

/-- What a migration would change. A source that is listed but is no text is passed over. -/
def plan [TypeScript.Reader] (t : Tree) (roots : List Path) : Except Failure Report := do
  let paths ← sources t roots
  let step (draft : Draft) (path : Path) : Except Failure Draft :=
    match t.read path with
    | none => .ok draft
    | some text => migrateSource t path text draft
  let draft ← paths.foldlM step { report := { filesScanned := paths.length } }
  return draft.report

/-- The tree with every change of a report written, and the report marked so. -/
def apply (t : Tree) (report : Report) : Except Failure (Tree × Report) := do
  let write (t : Tree) (c : FileChange) : Except Failure Tree :=
    (t.write c.path c.after).mapError (.writing c.path)
  let t ← report.changes.foldlM write t
  return (t, { report with applied := true })

/-- A migration: planned, and applied unless it is a dry run. -/
def migrate [TypeScript.Reader] (t : Tree) (roots : List Path) (dryRun : Bool) :
    Except Failure (Tree × Report) := do
  let report ← plan t roots
  if dryRun then return (t, report) else apply t report

end RouterShift.Workspace
