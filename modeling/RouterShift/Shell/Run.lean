import RouterShift.Shell.Expansion
import RouterShift.Shell.Reader
import RouterShift.Upgrade.Command

/-! Running scripts. A script turns a process into another one: what it did to the files, what it
    wrote, how it ended. Programs are scripts by name; they and everything in parentheses or in a
    pipe run on their own, and of them only the files, the output and the result are kept. -/

namespace RouterShift.Shell

/-- Scripts that can be called by name. -/
abbrev Programs := List (String × String)

/-! ### Streams -/

/-- Where the bytes of a stream go. -/
inductive Sink
  | stream (n : Nat)
  | file (path : Path)
  | nowhere

def nullDevice : String := "/dev/null"

/-- Where each stream that was led elsewhere goes. -/
abbrev Sinks := List (Nat × Sink)

def sinkOf (sinks : Sinks) (stream : Nat) : Sink := (sinks.lookup stream).getD (.stream stream)

/-- The bytes of a file, nothing when there is none. -/
def contentOf (tree : Entry) (path : Path) : List UInt8 :=
  match tree.locate? [] path with
  | some (.file content) => content.bytes
  | _ => []

/-- Bytes put where a stream goes. -/
def deliver (sinks : Sinks) (p : Process) (chunk : Nat × List UInt8) : Process :=
  match sinkOf sinks chunk.1 with
  | .stream n => p.write n chunk.2
  | .nowhere => p
  | .file path =>
    match p.tree.writeAt? [] path ⟨contentOf p.tree path ++ chunk.2⟩ with
    | some tree => { p with tree := tree }
    | none => p

/-- A redirection to a file that is made, emptied or added to. -/
def openFile (p : Process) (name : String) (appends : Bool) : Option (Process × Sink) :=
  if name = nullDevice then some (p, .nowhere)
  else
    let path := p.path name
    let kept := if appends then contentOf p.tree path else []
    (p.tree.writeAt? [] path ⟨kept⟩).map fun tree => ({ p with tree := tree }, .file path)

/-! ### Scripts -/

/-- What is left of a process that ran on its own, for the one that started it. -/
def rejoin (outer inner : Process) : Process :=
  let status := match inner.fate with
    | some (.exited n) => n
    | some .killed => 137
    | none => inner.status
  { outer with tree := inner.tree, output := inner.output, status := status }

/-- The same for a part of the script itself: it goes by the name of the whole, so that a signal to
    it is one to all. -/
def rejoinPart (outer inner : Process) : Process :=
  let p := rejoin outer inner
  if inner.fate = some .killed then { p with fate := some .killed } else p

/-- The script goes on after a command: what failed ends a strict shell unless it was tested. -/
def settle (tested : Bool) (p : Process) : Process :=
  if p.isStrict && !tested && p.status ≠ 0 && p.fate.isNone then
    { p with fate := some (.exited p.status) }
  else p

/-- A part of the word is what a script writes. -/
def hasOutput (w : Word) : Bool :=
  w.any fun
    | .output .. => true
    | _ => false

mutual
/-- The fragments that a part of a word expands to, and the process after that. -/
def expandPart (programs : Programs) : (fuel : Nat) → Process → Part → Process × List Fragment
  | 0, p, _ => (p, [])
  | _ + 1, p, .text s => (p, [.fixed s])
  | _ + 1, p, .wild sign => (p, [.wild sign])
  | _ + 1, p, .parameter name default inQuotes =>
    (p, parameterFragments p name default inQuotes)
  | fuel + 1, p, .output text inQuotes =>
    let inner := runText programs fuel { p with output := [] } text
    let value := Text.ofUtf8Lossy (inner.bytesOf 1)
    let value := String.ofList (value.toList.reverse.dropWhile (· == '\n')).reverse
    let errors := inner.output.filter (·.1 != 1)
    let p := rejoinPart p { inner with output := p.output ++ errors }
    (p, [if inQuotes then .fixed value else .loose value])

def expandWords (programs : Programs) : (fuel : Nat) → Process → List Word → Process × List String
  | 0, p, _ => (p, [])
  | fuel + 1, p, words =>
    words.foldl (fun (p, done) word =>
      let (p, fragments) := word.foldl (fun (p, sofar) part =>
        let (p, more) := expandPart programs fuel p part
        (p, sofar ++ more)) (p, [])
      (p, done ++ (fieldsOf fragments).flatMap (names p))) (p, [])

/-- A word expanded without being split. -/
def expandWhole (programs : Programs) : (fuel : Nat) → Process → Word → Process × String
  | 0, p, _ => (p, "")
  | fuel + 1, p, word =>
    word.foldl (fun (p, text) part =>
      let (p, fragments) := expandPart programs fuel p part
      let more := fragments.map fun
        | .fixed s | .loose s => s
        | .wild sign => sign.toString
        | .boundary => " "
      (p, text ++ String.join more)) (p, "")

/-- The process with its redirections made, none when one of them cannot be. -/
def redirect (programs : Programs) : (fuel : Nat) → Process → List Redirection →
    Process × Option Sinks
  | 0, p, _ => (p, none)
  | fuel + 1, p, redirections =>
    redirections.foldl (fun (p, sinks) r =>
      match sinks with
      | none => (p, none)
      | some sinks =>
        match r.target with
        | .stream n => (p, some ((r.stream, sinkOf sinks n) :: sinks))
        | .file word appends =>
          let (p, name) := expandWhole programs fuel p word
          match openFile p name appends with
          | some (p, sink) => (p, some ((r.stream, sink) :: sinks))
          | none => (p.complain 2 s!"cannot create {name}: Directory nonexistent", none)
        | .source word =>
          let (p, name) := expandWhole programs fuel p word
          match p.entry? name with
          | some (.file content) => ({ p with input := content.bytes }, some sinks)
          | _ =>
            if name = nullDevice then ({ p with input := [] }, some sinks)
            else (p.complain 2 s!"cannot open {name}: No such file", none)) (p, some [])

/-- A command by its name: of the shell, a program, or a tool. -/
def call (programs : Programs) : (fuel : Nat) → Process → List String → Process
  | 0, p, _ => p
  | _ + 1, p, [] => p
  | fuel + 1, p, name :: arguments =>
    match Tool.ofShell? name, programs.lookup name, Tool.ofSystem? name with
    | some tool, _, _ => tool arguments p
    | none, some text, _ =>
      rejoin p (runText programs fuel
        { p with arguments := name :: arguments, fate := none, isStrict := false } text)
    | none, none, some tool => tool arguments p
    | none, none, none =>
      match name, arguments with
      | "command", _ => call programs fuel p arguments
      | "eval", _ => runText programs fuel p (" ".intercalate arguments)
      | "exec", _ =>
        let p := call programs fuel p arguments
        if p.fate.isNone && !arguments.isEmpty then { p with fate := some (.exited p.status) }
        else p
      | "sh", "-c" :: text :: more =>
        rejoin p (runText programs fuel
          { p with arguments := if more.isEmpty then ["sh"] else more, isStrict := false } text)
      | _, _ => p.complain 127 s!"{name}: not found"

/-- A script carried out; `tested` says that its result is looked at by what is around it. -/
def run (programs : Programs) : (fuel : Nat) → (tested : Bool) → Process → Script → Process
  | 0, _, p, _ => p
  | _ + 1, _, p, .nothing => p
  | fuel + 1, tested, p, .simple assignments words redirections =>
    let (p, arguments) := expandWords programs fuel p words
    let (p, assigned) := assignments.foldl (fun (p, sofar) (name, word) =>
      let (p, value) := expandWhole programs fuel p word
      (p, sofar ++ [(name, value)])) (p, [])
    let p := if (assignments.map (·.2) ++ words).any hasOutput then p else
      if arguments.isEmpty then p.done 0 else p
    match redirect programs fuel { p with output := [] } redirections with
    | (q, none) => settle tested { q with output := p.output ++ q.output, input := p.input }
    | (q, some sinks) =>
      let set := assigned.foldl (fun q (name, value) => q.assign name value) q
      let ran := if arguments.isEmpty then set else call programs fuel set arguments
      let kept :=
        if arguments.isEmpty || assigned.isEmpty then ran.environment else q.environment
      settle tested (ran.output.foldl (deliver sinks)
        { ran with environment := kept, output := p.output, input := p.input })
  | fuel + 1, tested, p, .group body alone redirections =>
    match redirect programs fuel { p with output := [] } redirections with
    | (q, none) => settle tested { q with output := p.output ++ q.output, input := p.input }
    | (q, some sinks) =>
      let ran := run programs fuel tested q body
      let joined := if alone then rejoinPart q ran else ran
      settle tested (ran.output.foldl (deliver sinks)
        { joined with output := p.output, input := p.input })
  | fuel + 1, tested, p, .pipe first second =>
    let left := run programs fuel true { p with output := [] } first
    let errors := left.output.filter (·.1 != 1)
    let q := rejoinPart p { left with output := p.output ++ errors }
    let right := run programs fuel true { q with input := left.bytesOf 1 } second
    settle tested { rejoinPart q right with input := p.input }
  | fuel + 1, tested, p, .both first second =>
    let p := run programs fuel true p first
    if p.fate.isSome || p.status ≠ 0 then p else run programs fuel tested p second
  | fuel + 1, tested, p, .either first second =>
    let p := run programs fuel true p first
    if p.fate.isSome || p.status = 0 then p else run programs fuel tested p second
  | fuel + 1, tested, p, .sequence first second =>
    let p := run programs fuel tested p first
    if p.fate.isSome then p else run programs fuel tested p second
  | fuel + 1, _, p, .opposite body =>
    let p := run programs fuel true p body
    if p.fate.isSome then p else p.done (if p.status = 0 then 1 else 0)
  | fuel + 1, tested, p, .choice test body otherwise =>
    let p := run programs fuel true p test
    if p.fate.isSome then p
    else if p.status = 0 then run programs fuel tested p body
    else run programs fuel tested (p.done 0) otherwise
  | fuel + 1, tested, p, .loop test wanted body =>
    let p := run programs fuel true p test
    if p.fate.isSome then p
    else if (p.status == 0) != wanted then p.done 0
    else
      let p := run programs fuel tested p body
      if p.fate.isSome then p else run programs fuel tested p (.loop test wanted body)
  | fuel + 1, tested, p, .each name words body =>
    let (p, values) := expandWords programs fuel p words
    values.foldl (fun p value =>
      if p.fate.isSome then p else run programs fuel tested (p.assign name value) body) p

/-- A script by its text. -/
def runText (programs : Programs) : (fuel : Nat) → Process → String → Process
  | 0, p, _ => p
  | fuel + 1, p, text =>
    match parse text with
    | .ok script => run programs fuel false p script
    | .error e => { p.complain 2 e.message with fate := some (.exited 2) }
end

/-- How deep scripts may be nested and how often loops may go round, all in all. -/
def fuel : Nat := 1000

/-- A command line carried out in a directory: how it went, and the tree after it. -/
def execute (programs : Programs) (environment : List (String × String)) (tree : Entry)
    (command : String) (directory : Path) : Upgrade.Outcome × Entry :=
  let failure (stderr : String) : Upgrade.Outcome × Entry :=
    (.error { command, stderr }, tree)
  if command.toList.all Text.isBlank then failure "empty command line"
  else if !(tree.locate? [] directory).any (·.isDirectory) then
    failure s!"failed to start shell for \x60{command}\x60"
  else
    let p := runText programs fuel { tree, directory := directory.normalize, environment } command
    let stdout := Text.ofUtf8Lossy (p.bytesOf 1)
    let stderr := Text.ofUtf8Lossy (p.bytesOf 2)
    let status := match p.fate with
      | some (.exited n) => some n
      | some .killed => none
      | none => some p.status
    if status = some 0 then (.ok ⟨stdout, stderr⟩, p.tree)
    else (.error ⟨command, stdout, stderr, status.map Int.ofNat⟩, p.tree)

end RouterShift.Shell
