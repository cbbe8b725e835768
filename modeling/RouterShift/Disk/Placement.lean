import RouterShift.Disk.Entry

/-! Files put below a directory: what a directory is stocked with, or what a command leaves behind
    in the directory it ran in. -/

namespace RouterShift.Disk

/-- One thing to put, by its path from the directory. -/
inductive Placement
  | directory (path : Path)
  | file (path : Path) (content : Content)
  /-- The file is not there any more. -/
  | absent (path : Path)
  deriving Repr, DecidableEq

/-- The tree with one thing put below a directory, with all directories on the way; what cannot be
    put there is left out. -/
def Placement.apply (base : Path) (tree : Entry) : Placement → Entry
  | directory p => (tree.makePath? [] (base.join p.text)).getD tree
  | file p content =>
    let target := base.join p.text
    let made := (target.parent?.bind (tree.makePath? [])).getD tree
    (made.writeAt? [] target content).getD tree
  | absent p =>
    match tree.names? [] (base.join p.text) with
    | some names => tree.remove names
    | none => tree

/-- The tree with things put below a directory, which is made if it is missing. -/
def stock (tree : Entry) (base : Path) (placements : List Placement) : Entry :=
  placements.foldl (Placement.apply base) ((tree.makePath? [] base).getD tree)

/-- The files below a directory: their paths from there, and what they hold. -/
def stockOf (tree : Entry) (base : Path) : List (Path × Content) :=
  match tree.locate? [] base with
  | some e =>
    e.files.map fun (names, content) =>
      (⟨String.ofList (List.intercalate ['/'] (names.map (·.toList)))⟩, content)
  | none => []

end RouterShift.Disk
