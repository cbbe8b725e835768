import RouterShift.Disk.Entry

/-! Copying a directory: everything below it is made again below another directory, files over those
    that are there, and what else is there stays. -/

namespace RouterShift.Disk

/-- Why a directory was not copied. -/
inductive CopyError
  | create (target : Path)
  | walk (source : Path)
  /-- Something in the target is in the way. -/
  | blocked
  deriving Repr, DecidableEq

/-- The words for an error; what is in the way has none of its own. -/
def CopyError.message : CopyError → Option String
  | create target => some s!"create {target.text}"
  | walk source => some s!"walk {source.text}"
  | blocked => none

/-- One file copied. The target is emptied before the source is read, so a file that is copied
    onto itself is lost. -/
def copyFile? (tree : Entry) (source target : List String) : Option Entry := do
  let emptied ← tree.write? target ⟨[]⟩
  match emptied.at? source with
  | some (.file content) => emptied.write? target content
  | _ => none

mutual
/-- What is below an entry, directories before what they hold, each by its way from there. -/
def below : Entry → List (List String × Bool)
  | .file _ => []
  | .directory entries => belowAmong entries

def belowAmong : List (String × Entry) → List (List String × Bool)
  | [] => []
  | (name, e) :: rest =>
    ([name], e.isDirectory) :: (below e).map (fun (way, d) => (name :: way, d))
      ++ belowAmong rest
end

/-- The tree with something from below the source made below the target. -/
def copyStep? (source target : List String) (tree : Entry) (item : List String × Bool) :
    Option Entry :=
  if item.2 then tree.makeDirectories? (target ++ item.1)
  else copyFile? tree (source ++ item.1) (target ++ item.1)

/-- The tree with all items copied, or as it is at the first that cannot be. -/
def copyAll (source target : List String) (tree : Entry) :
    List (List String × Bool) → Entry × Bool
  | [] => (tree, true)
  | item :: rest =>
    match copyStep? source target tree item with
    | some tree => copyAll source target tree rest
    | none => (tree, false)

/-- The tree with a directory copied, as far as that went, and what it failed of. -/
def copy (tree : Entry) (source target : Path) : Entry × Except CopyError Unit :=
  match tree.makePath? [] target with
  | none => (tree, .error (.create target))
  | some made =>
    match made.names? [] source, made.names? [] target with
    | some origin, some place =>
      match made.at? origin with
      | none => (made, .error (.walk source))
      | some e =>
        let (tree, isDone) := copyAll origin place made (below e)
        (tree, if isDone then .ok () else .error .blocked)
    | _, _ => (made, .error (.walk source))

end RouterShift.Disk
