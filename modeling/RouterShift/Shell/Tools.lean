import RouterShift.Disk.Copy
import RouterShift.Shell.Printing

/-! The commands that the shell knows by itself: those that belong to a shell, and the few tools on
    files that scripts cannot do without. -/

namespace RouterShift.Shell

abbrev Tool := List String → Process → Process

namespace Tool

/-! ### The shell's own -/

/-- The number that a text stands for, digits only. -/
def count? (s : String) : Option Nat :=
  if s.isEmpty || !s.toList.all (fun c => '0' ≤ c && c ≤ '9') then none
  else some (number s.toList).1

def exit : Tool := fun args p =>
  match args with
  | [] => { p with fate := some (.exited p.status) }
  | s :: _ =>
    match count? s with
    | some n => { p with fate := some (.exited (n % 256)) }
    | none => { p.complain 2 s!"exit: Illegal number: {s}" with fate := some (.exited 2) }

/-- Signals that do nothing to a process that does not ask for them. -/
def harmless : List String := ["0", "CHLD", "17", "CONT", "18", "URG", "23", "WINCH", "28"]

def kill : Tool := fun args p =>
  let (signal, rest) := match args with
    | "-s" :: s :: rest => (s, rest)
    | s :: rest => match s.toList with
      | '-' :: name => (String.ofList name, rest)
      | _ => ("TERM", s :: rest)
    | [] => ("TERM", [])
  match rest with
  | [] => p.complain 2 "kill: Usage: kill [-s sigspec | -signum | -sigspec] [pid | job]..."
  | s :: _ =>
    if s != Process.identity then p.complain 1 "kill: No such process"
    else if harmless.contains signal then p.done 0
    else { p with fate := some .killed }

def changeDirectory : Tool := fun args p =>
  let target := args.headD "/"
  if p.isDirectory target then { p with directory := (p.path target).normalize, status := 0 }
  else p.complain 2 s!"cd: can't cd to {target}"

/-- Variables from words with an equals sign. -/
def exportNames : Tool := fun args p =>
  (args.foldl (fun p word =>
    match Text.cutFirst? ['='] word.toList with
    | some (name, value) => p.assign (String.ofList name) (String.ofList value)
    | none => p) p).done 0

def setOptions : Tool := fun args p =>
  let hasOption (sign : Char) (o : Char) (s : String) : Bool :=
    s.toList.head? = some sign && s.toList.contains o
  let p := if args.any (hasOption '-' 'e') then { p with isStrict := true }
    else if args.any (hasOption '+' 'e') then { p with isStrict := false }
    else p
  let p := match args with
    | "--" :: words => { p with arguments := p.arguments.take 1 ++ words }
    | _ => p
  p.done 0

/-- Comparison of two integers. -/
def compares (op : String) (a b : Int) : Bool :=
  match op with
  | "-eq" => a == b
  | "-ne" => a != b
  | "-lt" => a < b
  | "-le" => a ≤ b
  | "-gt" => a > b
  | "-ge" => a ≥ b
  | _ => false

/-- The condition that words state. -/
def holds (p : Process) : List String → Bool
  | [] => false
  | ["!", a] => a.isEmpty
  | "!" :: a :: rest => !holds p (a :: rest)
  | [s] => !s.isEmpty
  | [op, s] =>
    match op with
    | "-n" => !s.isEmpty
    | "-z" => s.isEmpty
    | "-e" => (p.entry? s).isSome
    | "-f" | "-r" | "-w" => (p.entry? s).any (!·.isDirectory)
    | "-d" => p.isDirectory s
    | "-s" => match p.entry? s with
      | some (.file content) => !content.bytes.isEmpty
      | some (.directory _) => true
      | none => false
    | _ => false
  | [a, op, b] =>
    match op with
    | "=" | "==" => a == b
    | "!=" => a != b
    | _ => compares op (integerOf a) (integerOf b)
  | _ => false

def test : Tool := fun args p => p.done (if holds p args then 0 else 1)

def bracket : Tool := fun args p =>
  if args.getLast? = some "]" then test args.dropLast p else p.complain 2 "[: missing ]"

/-! ### Tools on files -/

/-- The arguments that are no options. -/
def operands (args : List String) : List String :=
  args.filter fun s => !(s.toList.head? = some '-' && 1 < s.length)

/-- The letters of all options. -/
def options (args : List String) : List Char :=
  (args.filter fun s => s.toList.head? = some '-').flatMap (·.toList.drop 1)

def noSuchFile (tool what name : String) : String :=
  s!"{tool}: {what}{name}: No such file or directory"

def cat : Tool := fun args p =>
  let p := p.done 0
  let one (p : Process) (name : String) : Process :=
    if name = "-" then p.write 1 p.input
    else
      match p.entry? name with
      | some (.file content) => p.write 1 content.bytes
      | some (.directory _) => p.fail 1 s!"cat: {name}: Is a directory"
      | none => p.fail 1 (noSuchFile "cat" "" name)
  match operands args with
  | [] => p.write 1 p.input
  | names => names.foldl one p

def makeDirectory : Tool := fun args p =>
  let withParents := (options args).contains 'p'
  let one (p : Process) (name : String) : Process :=
    let path := p.path name
    match p.entry? name with
    | some e =>
      if withParents && e.isDirectory then p
      else p.fail 1 s!"mkdir: cannot create directory '{name}': File exists"
    | none =>
      if withParents || (path.parent?.bind (p.tree.locate? [])).any (·.isDirectory) then
        p.changed (p.tree.makePath? [] path)
          s!"mkdir: cannot create directory '{name}': Not a directory"
      else p.fail 1 (noSuchFile "mkdir" "cannot create directory " s!"'{name}'")
  (operands args).foldl one (p.done 0)

def touch : Tool := fun args p =>
  let one (p : Process) (name : String) : Process :=
    if (p.entry? name).isSome then p
    else
      p.changed (p.tree.writeAt? [] (p.path name) ⟨[]⟩)
        (noSuchFile "touch" "cannot touch " s!"'{name}'")
  (operands args).foldl one (p.done 0)

def remove : Tool := fun args p =>
  let flags := options args
  let isDeep := flags.contains 'r' || flags.contains 'R'
  let one (p : Process) (name : String) : Process :=
    match p.entry? name, p.tree.names? [] (p.path name) with
    | some e, some names =>
      if e.isDirectory && !isDeep then p.fail 1 s!"rm: cannot remove '{name}': Is a directory"
      else { p with tree := p.tree.remove names }
    | _, _ =>
      if flags.contains 'f' then p else p.fail 1 (noSuchFile "rm" "cannot remove " s!"'{name}'")
  (operands args).foldl one (p.done 0)

/-- The last piece of a path's spelling, slashes at its end apart. -/
def baseName (name : String) : String :=
  let kept := (name.toList.reverse.dropWhile (· == '/')).reverse
  String.ofList (((Text.splitAt (· == '/') kept).getLast?).getD [])

/-- Where something goes that is put at a path: into a directory that is there. -/
def landing (p : Process) (source target : String) : Path :=
  if p.isDirectory target then (p.path target).join (baseName source) else p.path target

/-- One thing copied to a path. -/
def copyOne (isDeep : Bool) (target : String) (p : Process) (source : String) : Process :=
  match p.entry? source with
  | none => p.fail 1 (noSuchFile "cp" "cannot stat " s!"'{source}'")
  | some (.file content) =>
    p.changed (p.tree.writeAt? [] (landing p source target) content)
      (noSuchFile "cp" "cannot create regular file " s!"'{target}'")
  | some (.directory _) =>
    if !isDeep then p.fail 1 s!"cp: -r not specified; omitting directory '{source}'"
    else
      match Disk.copy p.tree (p.path source) (landing p source target) with
      | (tree, .ok ()) => { p with tree := tree }
      | (tree, .error _) => { p with tree := tree }.fail 1 s!"cp: cannot copy '{source}'"

def copy : Tool := fun args p =>
  let flags := options args
  let isDeep := ['r', 'R', 'a'].any flags.contains
  match (operands args).reverse with
  | target :: source :: more => ((source :: more).reverse).foldl (copyOne isDeep target) (p.done 0)
  | _ => p.fail 1 "cp: missing file operand"

def move : Tool := fun args p =>
  match operands args with
  | [source, target] =>
    let copied := copyOne true target (p.done 0) source
    if copied.status = 0 then remove ["-r", source] copied else copied
  | _ => p.fail 1 "mv: missing file operand"

def list : Tool := fun args p =>
  let shown (name : String) : Bool := name.toList.head? != some '.'
  let one (p : Process) (name : String) : Process :=
    match p.entry? name with
    | some (.directory entries) =>
      p.say (String.join ((entries.map (·.1)).filter shown |>.map (· ++ "\n")))
    | some (.file _) => p.say s!"{name}\n"
    | none => p.fail 2 (noSuchFile "ls" "cannot access " s!"'{name}'")
  let names := operands args
  (if names.isEmpty then ["."] else names).foldl one (p.done 0)

/-! ### By name -/

/-- The commands that belong to the shell; a program of the same name is not looked for. -/
def ofShell? (name : String) : Option Tool :=
  match name with
  | ":" | "true" => some fun _ p => p.done 0
  | "false" => some fun _ p => p.done 1
  | "echo" => some fun args p => (p.write 1 (echoed args)).done 0
  | "printf" => some fun args p =>
    match args with
    | [] => p.complain 2 "printf: usage: printf format [arg ...]"
    | "--" :: format :: args => (p.write 1 (formatted format.toList args)).done 0
    | format :: args => (p.write 1 (formatted format.toList args)).done 0
  | "pwd" => some fun _ p => (p.say (p.directory.text ++ "\n")).done 0
  | "cd" => some changeDirectory
  | "exit" => some exit
  | "kill" => some kill
  | "export" => some exportNames
  | "set" => some setOptions
  | "shift" => some fun _ p =>
    { p with arguments := p.arguments.take 1 ++ p.arguments.drop 2, status := 0 }
  | "unset" => some fun args p =>
    { p with environment := p.environment.filter fun (n, _) => !args.contains n, status := 0 }
  | "test" => some test
  | "[" => some bracket
  | _ => none

/-- The tools that are found after all programs. -/
def ofSystem? (name : String) : Option Tool :=
  match name with
  | "cat" => some cat
  | "cp" => some copy
  | "ls" => some list
  | "mkdir" => some makeDirectory
  | "mv" => some move
  | "rm" => some remove
  | "sleep" => some fun _ p => p.done 0
  | "touch" => some touch
  | "basename" => some fun args p => (p.say (baseName (args.headD "") ++ "\n")).done 0
  | _ => none

end Tool
end RouterShift.Shell
