import RouterShift.Disk.Walk

/-! The files of a workspace: those below a directory on disk, or files held in memory with the
    current directory of a disk behind them. Both are read, written and listed by paths relative to
    the workspace root. -/

namespace RouterShift.Workspace

/-- Why a file operation failed. -/
inductive TreeError
  | walk (start : Path)
  | createParent (path : Path)
  | write (path : Path)
  deriving Repr, DecidableEq

def TreeError.message : TreeError → String
  | .walk start => s!"walk {start.text}"
  | .createParent path => s!"create parent dir for {path.text}"
  | .write path => s!"write {path.text}"

/-- Files by their paths, in the order of paths; a path that is written again keeps the spelling
    it had first. -/
abbrev FileMap := List (Path × String)

namespace FileMap

def get? (m : FileMap) (p : Path) : Option String := (m.find? (·.1.sameAs p)).map (·.2)

def insert (p : Path) (text : String) : FileMap → FileMap
  | [] => [(p, text)]
  | (q, t) :: rest =>
    match p.order q with
    | .lt => (p, text) :: (q, t) :: rest
    | .eq => (q, text) :: rest
    | .gt => (q, t) :: insert p text rest

end FileMap

/-- The files of a workspace. -/
inductive Tree
  /-- Files in memory; what they lack is looked up in a directory of a disk. -/
  | memory (files : FileMap) (behind : Entry) (directory : Path)
  /-- The files below a directory. -/
  | disk (whole : Entry) (root : Path)

namespace Tree

/-- The path names the root of the workspace. -/
def isRoot (p : Path) : Bool := p.text == "" || p.text == "."

/-- Where a path of the workspace is on disk. -/
def absolute (root p : Path) : Path := if isRoot p then root else root.join p.text

/-- The text of a file; in memory, that of the disk when there is none. -/
def read (t : Tree) (p : Path) : Option String :=
  match t with
  | .memory files behind directory =>
    (files.get? p).or (behind.readText? [] (directory.join p.text))
  | .disk whole root => whole.readText? [] (absolute root p)

/-- The tree with a file written, directories made where they are missing. -/
def write (t : Tree) (p : Path) (text : String) : Except TreeError Tree :=
  match t with
  | .memory files behind directory => .ok (.memory (files.insert p text) behind directory)
  | .disk whole root =>
    let target := absolute root p
    match target.parent?.elim (some whole) (whole.makePath? []) with
    | none => .error (.createParent target)
    | some made =>
      match made.writeAt? [] target (.ofString text) with
      | none => .error (.write target)
      | some written => .ok (.disk written root)

/-- A component that keeps a file in memory from being listed. -/
def isLeftOut : Component → Bool
  | .name s => s == Disk.vendored || Disk.isHidden s
  | _ => false

/-- The files at and below a directory, in the order of paths. -/
def list (t : Tree) (directory : Path) : Except TreeError (List Path) :=
  match t with
  | .memory files _ _ =>
    let everything := directory.text == "" || directory.sameAs ⟨"."⟩
    let isListed (p : Path) : Bool :=
      !p.components.any isLeftOut && (everything || p.isBelow directory)
    .ok ((files.map (·.1)).filter isListed)
  | .disk whole root =>
    let start := absolute root directory
    match Disk.visit? whole start with
    | none => .error (.walk start)
    | some paths => .ok (paths.map fun p => (p.below? root).getD p)

end Tree
end RouterShift.Workspace
