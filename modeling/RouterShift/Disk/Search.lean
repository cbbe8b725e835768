import RouterShift.Disk.Walk

/-! Looking for a directory by its name: depth first, by name within each directory, nothing hidden
    or vendored. What is found is the directory with the least way from where the search began. -/

namespace RouterShift.Disk

/-- A name that a search does not go into. -/
def isPassedOver (name : String) : Bool := isHidden name || name == vendored

mutual
/-- The way to the first directory below an entry whose name is wanted. -/
def seek? (wanted : List String) : Entry → Option (List String)
  | .file _ => none
  | .directory entries => seekAmong? wanted entries

def seekAmong? (wanted : List String) : List (String × Entry) → Option (List String)
  | [] => none
  | (name, e) :: rest =>
    let here :=
      if isPassedOver name || !e.isDirectory then none
      else if wanted.contains name then some [name]
      else (seek? wanted e).map (name :: ·)
    here.or (seekAmong? wanted rest)
end

/-- Why a directory was not found. -/
inductive SearchError
  | walk (root : Path)
  | notFound (wanted : List String)
  deriving Repr, DecidableEq

def SearchError.message : SearchError → String
  | walk root => s!"walk {root.text}"
  | notFound wanted =>
    let names := ", ".intercalate wanted
    s!"none of the specified directories ({names}) were found in the repository"

/-- The names that the sources of a package may be kept under. -/
def packageDirectories (package : String) : List String := [package, "src"]

/-- The directory of a package in what was cloned. -/
def packageDirectory (tree : Entry) (root : Path) (package : String) : Except SearchError Path :=
  match tree.locate? [] root with
  | none => .error (.walk root)
  | some e =>
    match seek? (packageDirectories package) e with
    | none => .error (.notFound (packageDirectories package))
    | some way => .ok (way.foldl (fun p name => p.join name) root)

end RouterShift.Disk
