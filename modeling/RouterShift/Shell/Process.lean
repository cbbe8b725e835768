import RouterShift.Disk.Entry

/-! A shell at work: the tree of files and the directory it is in, its variables and arguments, and
    what it has written so far, stream by stream in one order. -/

namespace RouterShift.Shell

/-- How a shell ends before its script does. -/
inductive Fate
  | exited (status : Nat)
  | killed
  deriving Repr, DecidableEq

structure Process where
  tree : Entry
  directory : Path
  environment : List (String × String) := []
  /-- The name that the shell goes by, and its arguments. -/
  arguments : List String := ["sh"]
  /-- The result of the last command; zero is success. -/
  status : Nat := 0
  fate : Option Fate := none
  /-- A command that fails ends the shell. -/
  isStrict : Bool := false
  input : List UInt8 := []
  output : List (Nat × List UInt8) := []

namespace Process

/-- What a process goes by in messages and signals. -/
def identity : String := "100"

/-- The path that a text names for the shell. -/
def path (p : Process) (text : String) : Path := p.directory.join text

def entry? (p : Process) (text : String) : Option Entry :=
  if text.isEmpty then none else p.tree.locate? [] (p.path text)

def isDirectory (p : Process) (text : String) : Bool := (p.entry? text).any (·.isDirectory)

/-- Bytes written to a stream. -/
def write (p : Process) (stream : Nat) (bytes : List UInt8) : Process :=
  if bytes.isEmpty then p else { p with output := p.output ++ [(stream, bytes)] }

def say (p : Process) (text : String) : Process := p.write 1 text.toUTF8.toList

/-- A command came to a result. -/
def done (p : Process) (status : Nat) : Process := { p with status := status }

/-- A command failed and says why. -/
def fail (p : Process) (status : Nat) (message : String) : Process :=
  (p.write 2 (message ++ "\n").toUTF8.toList).done status

/-- A complaint of the shell itself. -/
def complain (p : Process) (status : Nat) (message : String) : Process :=
  let name := p.arguments.headD "sh"
  p.fail status s!"{name}: 1: {message}"

def value? (p : Process) (name : String) : Option String := p.environment.lookup name

def assign (p : Process) (name value : String) : Process :=
  { p with environment := (name, value) :: p.environment.filter (·.1 != name) }

/-- The arguments without the name of the shell. -/
def positional (p : Process) : List String := p.arguments.drop 1

/-- The bytes of one stream. -/
def bytesOf (p : Process) (stream : Nat) : List UInt8 :=
  (p.output.filter (·.1 == stream)).flatMap (·.2)

/-- A change to the tree that a command could not make without it being said. -/
def changed (p : Process) (tree : Option Entry) (message : String) : Process :=
  match tree with
  | some t => { p with tree := t }
  | none => p.fail 1 message

end Process
end RouterShift.Shell
