import RouterShift.Path
import RouterShift.Text.Utf8

/-! A directory tree. Entries of a directory are kept sorted by name, and every operation is one on
    the whole tree that names an entry by the names on the way to it: looking it up, making
    directories, writing, removing. There are no links, so `..` is the name before it taken back. -/

namespace RouterShift

/-- What a file holds. -/
structure Content where
  bytes : List UInt8
  deriving Repr, DecidableEq, Inhabited

namespace Content

def ofString (s : String) : Content := ⟨s.toUTF8.toList⟩

/-- The content as a text, if it is one. -/
def text? (c : Content) : Option String := Text.ofUtf8? c.bytes

/-- The content as it is shown, readable or not. -/
def shown (c : Content) : String := Text.ofUtf8Lossy c.bytes

end Content

/-- A file, or a directory with its entries. -/
inductive Entry
  | file (content : Content)
  | directory (entries : List (String × Entry))

namespace Entry

instance : Inhabited Entry := ⟨directory []⟩

def isDirectory : Entry → Bool
  | directory _ => true
  | file _ => false

/-- The entries of a directory; a file has none. -/
def entries : Entry → List (String × Entry)
  | directory entries => entries
  | file _ => []

/-- The entry of a name in a directory. -/
def find? (name : String) (entries : List (String × Entry)) : Option Entry :=
  (entries.find? (·.1 == name)).map (·.2)

/-- The entries with one of a name put where it belongs, in the place of the one it had before. -/
def put (name : String) (e : Entry) : List (String × Entry) → List (String × Entry)
  | [] => [(name, e)]
  | (other, o) :: rest =>
    match compare name other with
    | .lt => (name, e) :: (other, o) :: rest
    | .eq => (name, e) :: rest
    | .gt => (other, o) :: put name e rest

/-- The entry that names lead to. -/
def at? : Entry → List String → Option Entry
  | e, [] => some e
  | file _, _ :: _ => none
  | directory entries, name :: rest => (find? name entries).bind (·.at? rest)

/-- The tree with a directory wherever names lead; none when a file is in the way. -/
def makeDirectories? : Entry → List String → Option Entry
  | file _, _ => none
  | directory entries, [] => some (directory entries)
  | directory entries, name :: rest =>
    (((find? name entries).getD (directory [])).makeDirectories? rest).map fun e =>
      directory (put name e entries)

/-- The tree with a file written; none when its directory is missing or a directory is there. -/
def write? : Entry → List String → Content → Option Entry
  | directory entries, [name], content =>
    match find? name entries with
    | some (directory _) => none
    | _ => some (directory (put name (file content) entries))
  | directory entries, name :: rest, content =>
    ((find? name entries).bind (·.write? rest content)).map fun e =>
      directory (put name e entries)
  | _, _, _ => none

/-- The tree without the entry that names lead to and all below it. -/
def remove : Entry → List String → Entry
  | directory entries, [name] => directory (entries.filter (·.1 != name))
  | directory entries, name :: rest =>
    match find? name entries with
    | some e => directory (put name (e.remove rest) entries)
    | none => directory entries
  | e, _ => e

mutual
/-- All files at or below an entry with the names that lead to them. -/
def files : Entry → List (List String × Content)
  | file content => [([], content)]
  | directory entries => filesAmong entries

def filesAmong : List (String × Entry) → List (List String × Content)
  | [] => []
  | (name, e) :: rest => (files e).map (fun (names, c) => (name :: names, c)) ++ filesAmong rest
end

/-! ### Paths in a tree -/

/-- One component of a path followed in the tree, with the names so far backwards; `..` needs a
    directory to leave. -/
def follow? (tree : Entry) (names : List String) : Component → Option (List String)
  | .root => some []
  | .here => some names
  | .name s => some (s :: names)
  | .parent =>
    match tree.at? names.reverse with
    | some (directory _) => some (names.drop 1)
    | _ => none

/-- The names that a path leads along, when it starts at `base`. -/
def names? (tree : Entry) (base : List String) (p : Path) : Option (List String) :=
  (p.components.foldlM (follow? tree) base.reverse).map List.reverse

/-- A path that ends in a slash or a dot means a directory. -/
def meansDirectory (p : Path) : Bool :=
  match p.text.toList.reverse with
  | '/' :: _ => true
  | '.' :: '/' :: _ => true
  | _ => false

/-- What a path names. -/
def locate? (tree : Entry) (base : List String) (p : Path) : Option Entry := do
  let names ← tree.names? base p
  let e ← tree.at? names
  if meansDirectory p && !e.isDirectory then none else some e

/-- The text of the file that a path names. -/
def readText? (tree : Entry) (base : List String) (p : Path) : Option String :=
  match tree.locate? base p with
  | some (file content) => content.text?
  | _ => none

/-- One component of a path made into a directory on the way. -/
def makeStep? : Entry × List String → Component → Option (Entry × List String)
  | (tree, _), .root => some (tree, [])
  | (tree, names), .here => some (tree, names)
  | (tree, names), .parent => some (tree, names.drop 1)
  | (tree, names), .name s =>
    (tree.makeDirectories? (s :: names).reverse).map fun tree => (tree, s :: names)

/-- The tree with every directory on a path, the last one included. -/
def makePath? (tree : Entry) (base : List String) (p : Path) : Option Entry :=
  (p.components.foldlM makeStep? (tree, base.reverse)).map (·.1)

/-- The tree with a file written where a path leads; its directory must be there. -/
def writeAt? (tree : Entry) (base : List String) (p : Path) (content : Content) : Option Entry :=
  if meansDirectory p then none
  else (tree.names? base p).bind fun names => tree.write? names content

end Entry
end RouterShift
