import RouterShift.Disk.Placement
import RouterShift.Upgrade.Command

/-! A rehearsed runner. It has a list of lines that say how commands go; a command is played by the
    first line that is left if it begins as that line says, and otherwise it succeeds quietly. A
    repository that is cloned gets its files. -/

namespace RouterShift.Upgrade

/-- How one command goes. -/
structure Line where
  /-- How the command begins. -/
  opening : String
  succeeds : Bool
  stdout : String := ""
  stderr : String := ""
  exitCode : Option Int := some 1
  /-- What the command leaves in its directory. -/
  leaves : List Disk.Placement := []
  deriving Repr, DecidableEq

/-- The lines that are left, and what a clone is filled with. -/
structure Rehearsal where
  lines : List Line
  repository : List Disk.Placement := []
  deriving Repr, DecidableEq

namespace Rehearsal

def isOpenedBy (opening command : String) : Bool := opening.toList.isPrefixOf command.toList

/-- How a line lets a command go. -/
def Line.outcome (line : Line) (command : String) : Outcome :=
  if line.succeeds then .ok ⟨line.stdout, line.stderr⟩
  else .error ⟨command, line.stdout, line.stderr, line.exitCode⟩

/-- The last argument of a command in double quotes. -/
def lastQuoted? (command : String) : Option String :=
  match (Text.splitAt (· == '"') command.toList).reverse with
  | _ :: quoted :: _ :: _ => some (String.ofList quoted)
  | _ => none

/-- The tree after a command that succeeded: a clone is there. -/
def fillClone (repository : List Disk.Placement) (tree : Entry) (command : String) : Entry :=
  if isOpenedBy "git clone " command then
    match lastQuoted? command with
    | some directory => Disk.stock tree ⟨directory⟩ repository
    | none => tree
  else tree

def runner : Runner Rehearsal := fun r tree command directory =>
  let finish (outcome : Outcome) (r : Rehearsal) (tree : Entry) : Outcome × Rehearsal × Entry :=
    match outcome with
    | .ok _ => (outcome, r, fillClone r.repository tree command)
    | .error _ => (outcome, r, tree)
  match r.lines with
  | line :: rest =>
    if isOpenedBy line.opening command then
      finish (Line.outcome line command) { r with lines := rest }
        (line.leaves.foldl (Disk.Placement.apply directory) tree)
    else finish (.ok {}) r tree
  | [] => finish (.ok {}) r tree

end Rehearsal
end RouterShift.Upgrade
