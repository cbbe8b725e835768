import RouterShift.Disk.Ignore

/-! Walking a directory tree: depth first, entries by name, without what is hidden, vendored or
    ignored. The entry the walk starts at is always visited; the ignore files above it count. -/

namespace RouterShift.Disk

/-- A name of a hidden entry. -/
def isHidden (name : String) : Bool := name.toList.head? = some '.'

/-- The directory that installed packages are kept in. -/
def vendored : String := "node_modules"

/-- An entry that a walk leaves out with all below it. An exception among the ignore rules lets a
    hidden entry be seen. -/
def skips (levels : List Ignore.Level) (names : List String) (name : String) (e : Entry) : Bool :=
  name == vendored ||
    match Ignore.verdict? levels names e.isDirectory with
    | some ignored => ignored
    | none => isHidden name

mutual
/-- The files of an entry that `names` lead to, each by the names that lead to it from the start of
    the walk, which is `way` from there. -/
def walk (levels : List Ignore.Level) (names way : List String) : Entry → List (List String)
  | .file _ => [way]
  | .directory entries => walkAmong (Ignore.Level.of names entries :: levels) names way entries

def walkAmong (levels : List Ignore.Level) (names way : List String) :
    List (String × Entry) → List (List String)
  | [] => []
  | (name, e) :: rest =>
    let found :=
      if skips levels (names ++ [name]) name e then []
      else walk levels (names ++ [name]) (way ++ [name]) e
    found ++ walkAmong levels names way rest
end

/-- The levels of the directories above the entry that names lead to, the deepest first. -/
def levelsAbove (tree : Entry) (names : List String) : List Ignore.Level :=
  (List.range names.length).reverse.map fun n =>
    Ignore.Level.of (names.take n) ((tree.at? (names.take n)).getD default).entries

/-- The files at and below a path, spelled from that path; none when there is nothing. -/
def visit? (tree : Entry) (start : Path) : Option (List Path) := do
  let names ← tree.names? [] start
  let e ← tree.locate? [] start
  return (walk (levelsAbove tree names) names [] e).map fun way =>
    way.foldl (fun p name => p.join name) start

end RouterShift.Disk
