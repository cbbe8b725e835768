import RouterShift.Path

/-! What a migration reports: the files it looked at and the texts it changed. -/

namespace RouterShift

/-- What a file is to the migration. -/
inductive FileRole
  | source
  | template
  | manifest
  deriving Repr, DecidableEq, Inhabited

namespace FileRole

/-- The role that a file's name gives it. -/
def ofPath? (p : Path) : Option FileRole :=
  match p.extension? with
  | some "ts" => some .source
  | some "html" => some .template
  | some "json" => if p.fileName? = some "package.json" then some .manifest else none
  | _ => none

def render : FileRole → String
  | .source => "ts-source"
  | .template => "template"
  | .manifest => "manifest"

def ofText? : String → Option FileRole
  | "ts-source" => some .source
  | "template" => some .template
  | "manifest" => some .manifest
  | _ => none

end FileRole

/-- Where a component's template is written. -/
inductive TemplateLocation
  /-- In the decorator itself. -/
  | inline
  /-- In a file of its own. -/
  | external (path : Path)
  deriving Repr, DecidableEq

def TemplateLocation.isInline : TemplateLocation → Bool
  | .inline => true
  | .external _ => false

/-- One file whose text a migration changed, or would change. -/
structure FileChange where
  path : Path
  role : FileRole
  before : String
  after : String
  deriving Repr, DecidableEq

def FileChange.isNoop (c : FileChange) : Bool := c.before == c.after

/-- What one run of the migration came to. -/
structure Report where
  /-- Source files visited. -/
  filesScanned : Nat := 0
  /-- Source files that talk to UI-Router or declare a component. -/
  candidates : Nat := 0
  /-- Templates that mention the vocabulary. -/
  templateTargets : Nat := 0
  /-- Files whose text changed, in the order they are written. -/
  changes : List FileChange := []
  /-- Whether the changes were written. -/
  applied : Bool := false
  deriving Repr, DecidableEq

def Report.changedPaths (r : Report) : List Path := r.changes.map (·.path)

end RouterShift
