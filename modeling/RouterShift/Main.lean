import RouterShift.CommandLine.Run
import RouterShift.Disk.Placement

/-! The program. What it does is a function of the command line and of the files around it; here the
    files are read, the function is asked, and what it shows and changes is written out. -/

namespace RouterShift.Program

/-- An entry of a directory and all below it, by paths that start with `way`; what cannot be read is
    left out. -/
partial def load (way : String) (e : IO.FS.DirEntry) : IO (List Disk.Placement) := do
  let path := way ++ e.fileName
  try
    if ← e.path.isDir then
      let inner ← (← e.path.readDir).toList.mapM (load (path ++ "/"))
      return .directory ⟨path⟩ :: inner.flatten
    else return [.file ⟨path⟩ ⟨(← IO.FS.readBinFile e.path).toList⟩]
  catch _ => return []

/-- The text of a file, if there is one. -/
def textOf? (path : String) : IO (Option String) := do
  try return some (← IO.FS.readFile path) catch _ => return none

/-- The files that say what is ignored. -/
def ignoreFiles : List String := [".ignore", ".gitignore", ".git/info/exclude"]

/-- The tree with the ignore files of a directory. -/
def withIgnoreFiles (tree : Entry) (directory : Path) : IO Entry := do
  let found ← ignoreFiles.filterMapM fun name => do
    return (← textOf? (directory.join name).text).map fun text =>
      Disk.Placement.file ⟨name⟩ (.ofString text)
  return Disk.stock tree directory found

/-- The directories above a path. -/
def above (p : Path) : List Path :=
  let cs := p.components
  (List.range (cs.length - 1)).map fun n => Path.ofComponents (cs.take (n + 1))

/-- The tree of the directory the program runs in, at its place, with the ignore files above it. -/
def surroundingTree (directory : Path) : IO Entry := do
  let found ← (← (← IO.currentDir).readDir).toList.mapM (load "")
  let tree ← (above directory).foldlM withIgnoreFiles default
  return Disk.stock tree directory found.flatten

/-- The programs that an upgrade calls. -/
def called : List String := ["git", "npm", "npx"]

/-- The first script of a name in some directories. -/
def script? (directories : List String) (name : String) : IO (Option (String × String)) := do
  for directory in directories do
    if let some text ← textOf? s!"{directory}/{name}" then
      return if text.startsWith "#!/bin/sh" then some (name, text) else none
  return none

def pathOf (names : List String) : String := String.join (names.map ("/" ++ ·))

/-- What the file that names lead to holds. -/
def contentAt? (tree : Entry) (names : List String) : Option Content :=
  match tree.at? names with
  | some (.file content) => some content
  | _ => none

/-- Writes the files that are new or different, and removes those that are gone. -/
def save (before after : Entry) : IO Unit := do
  for (names, content) in after.files do
    if contentAt? before names = some content then continue
    IO.FS.createDirAll (pathOf names.dropLast)
    IO.FS.writeBinFile (pathOf names) ⟨content.bytes.toArray⟩
  for (names, _) in before.files do
    if (after.at? names).isNone then IO.FS.removeFile (pathOf names)

end RouterShift.Program

open RouterShift in
def main (arguments : List String) : IO UInt32 := do
  let directory : Path := ⟨(← IO.currentDir).toString⟩
  let tree ← Program.surroundingTree directory
  let known (name : String) : IO (Option (String × String)) := do
    return (← IO.getEnv name).map (name, ·)
  let path := (← IO.getEnv "PATH").getD ""
  let directories := (Text.splitAt (· == ':') path.toList).map String.ofList
  let temporary := (← IO.getEnv "TMPDIR").getD "/tmp"
  let moment ← IO.monoNanosNow
  let result := CommandLine.Surroundings.answer
    { tree, directory
      programs := ← Program.called.filterMapM (Program.script? directories)
      environment := ← ["HOME", "PATH", "TMPDIR", "W"].filterMapM known
      registryUrl := ← IO.getEnv "NGMIGRATE_REGISTRY"
      clone := ⟨s!"{temporary}/angular-update-{moment}"⟩
      color := (← IO.getEnv "NO_COLOR").isNone && (← (← IO.getStdout).isTty) }
    arguments
  IO.print result.stdout
  IO.eprint result.stderr
  Program.save tree result.tree
  return result.exitCode.toUInt32
