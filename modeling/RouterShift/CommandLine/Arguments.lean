import RouterShift.CommandLine.Config
import RouterShift.Workspace.Rename

/-! The command line. Every command has its options and its operands; an option with a value may have
    it as the next argument or behind an equals sign, and no option may be given twice but those
    that collect. The directory to work in can be given at every level, and the innermost counts. -/

namespace RouterShift.CommandLine

/-- What is asked for. -/
inductive Command
  | warn (package : String)
  | migrateRepository (order : Config.Order)
  | migratePackage (package : String) (order : Config.Order)
  | migrateRouter (projects : List Path) (dryRun skipsCheck : Bool)
  | rename (package version : String)
  deriving Repr, DecidableEq

/-- What is asked for, and in which directory. -/
structure Invocation where
  root : Path
  command : Command
  deriving Repr, DecidableEq

/-- How a command line is understood. -/
inductive Request
  | run (i : Invocation)
  | showVersion
  | showHelp
  | misused
  deriving Repr, DecidableEq

/-- What an option takes. -/
inductive Arity
  | flag
  | single
  | many
  deriving Repr, DecidableEq

/-- The options and operands of one level of commands. -/
structure Level where
  options : List (String × Arity)
  /-- Operands that must be there, and all that may be. -/
  required : Nat := 0
  allowed : Nat := 0
  /-- The commands that may follow. -/
  commands : List String := []
  /-- The version can be asked for. -/
  hasVersion : Bool := false

def rootOption : String × Arity := ("root", .single)

/-- The options of a migration that ends in an upgrade. -/
def pipelineOptions : List (String × Arity) :=
  [("max-attempts", .single), ("registry", .single), ("no-ui-router", .flag)]

/-- The level that names of commands lead to. -/
def levelOf? : List String → Option Level
  | [] => some {
      options := [rootOption]
      commands := ["warn", "migrate", "ui-router", "rename"], hasVersion := true }
  | ["warn"] => some { options := [rootOption], required := 1, allowed := 1 }
  | ["migrate"] => some { options := [rootOption], commands := ["repo", "npm"] }
  | ["migrate", "repo"] => some {
      options := rootOption :: ("package-name", .single) :: pipelineOptions
      required := 1, allowed := 2 }
  | ["migrate", "npm"] => some {
      options := rootOption :: pipelineOptions, required := 1, allowed := 2 }
  | ["ui-router"] => some {
      options := [rootOption, ("project", .many), ("dry-run", .flag),
        ("skip-dependency-check", .flag)] }
  | ["rename"] => some {
      options := [rootOption, ("version", .single)], required := 1, allowed := 1 }
  | _ => none

/-- What was given at one level. -/
structure Given where
  values : List (String × String) := []
  operands : List String := []

/-- What one level of the command line comes to: all of it read, or a command of the next level
    with what follows its name. -/
inductive Outcome
  | complete (g : Given)
  | command (g : Given) (name : String) (rest : List String)
  | showVersion
  | showHelp
  | misused

/-- An argument that is taken for an option. -/
def looksLikeOption (argument : String) : Bool :=
  argument.toList.head? = some '-' && 1 < argument.length

/-- The value of an option kept, if it may be given once more. -/
def Given.add? (g : Given) (name : String) (arity : Arity) (value : String) : Option Given :=
  if arity ≠ .many && g.values.any (·.1 == name) then none
  else some { g with values := g.values ++ [(name, value)] }

/-- One more operand kept, if there may be one. -/
def Given.addOperand? (g : Given) (l : Level) (operand : String) : Option Given :=
  if g.operands.length < l.allowed then some { g with operands := g.operands ++ [operand] }
  else none

/-- Arguments that are all operands. -/
def readOperands (l : Level) (g : Given) : List String → Outcome
  | [] => if g.operands.length < l.required then .misused else .complete g
  | a :: rest =>
    match g.addOperand? l a with
    | some g => readOperands l g rest
    | none => .misused

/-- An option behind its dashes: its name, and the value behind an equals sign. -/
def splitOption (option : List Char) : String × Option String :=
  match Text.cutFirst? ['='] option with
  | some (name, value) => (String.ofList name, some (String.ofList value))
  | none => (String.ofList option, none)

/-- A natural number of 32 bits; a sign may stand in front of it. -/
def count? (s : String) : Option Nat :=
  let (isNegative, digits) := match s.toList with
    | '-' :: ds => (true, ds)
    | '+' :: ds => (false, ds)
    | ds => (false, ds)
  if digits.isEmpty || !digits.all Text.isDigit then none
  else
    let n := Text.valueOf digits
    if n < Nat.pow 2 32 && (!isNegative || n = 0) then some n else none

/-- The value of an option is one that it can have. -/
def isValidValue (name value : String) : Bool := name != "max-attempts" || (count? value).isSome

/-- What an option adds, and if it takes up the argument after it; none for an option that the level
    does not have, or not in this form. -/
def readOption? (l : Level) (g : Given) (option : List Char) (next : Option String) :
    Option (Given × Bool) :=
  let (name, value) := splitOption option
  let kept (arity : Arity) (v : String) : Option Given :=
    (g.add? name arity v).filter fun _ => isValidValue name v
  match l.options.lookup name, value with
  | none, _ => none
  | some .flag, some _ => none
  | some .flag, none => (g.add? name .flag "").map (·, false)
  | some arity, some v => (kept arity v).map (·, false)
  | some arity, none =>
    (next.filter (!looksLikeOption ·)).bind fun v => (kept arity v).map (·, true)

/-- The arguments of one level. -/
def readLevel (l : Level) (g : Given) : List String → Outcome
  | [] =>
    if !l.commands.isEmpty || g.operands.length < l.required then .misused else .complete g
  | a :: rest =>
    if a = "--" then if l.commands.isEmpty then readOperands l g rest else .misused
    else if a = "-h" || a = "--help" then .showHelp
    else if l.hasVersion && (a = "-V" || a = "--version") then .showVersion
    else if looksLikeOption a then
      match (Text.afterStart? ['-', '-'] a.toList).bind (readOption? l g · rest.head?) with
      | none => .misused
      | some (g, false) => readLevel l g rest
      | some (g, true) =>
        match rest with
        | [] => .misused
        | _ :: rest => readLevel l g rest
    else if l.commands.contains a then .command g a rest
    else if !l.commands.isEmpty then if a = "help" then .showHelp else .misused
    else
      match g.addOperand? l a with
      | some g => readLevel l g rest
      | none => .misused

def Given.value? (g : Given) (name : String) : Option String := g.values.lookup name

def Given.has (g : Given) (name : String) : Bool := (g.value? name).isSome

/-- The parts of an order that are options, and its second operand. -/
def Given.order (g : Given) (registry : Option String) : Config.Order where
  target := g.operands[1]?.map (⟨·⟩)
  packageName := g.value? "package-name"
  skipsRouter := g.has "no-ui-router"
  overrides := {
    maxAttempts := (g.value? "max-attempts").bind count?
    registryUrl := (g.value? "registry").or registry }

/-- The command that names and what was given behind them ask for; `registry` counts where the
    command line names none. -/
def commandOf? (registry : Option String) (names : List String) (g : Given) : Option Command :=
  match names, g.operands with
  | ["warn"], package :: _ => some (.warn package)
  | ["migrate", "repo"], url :: _ =>
    some (.migrateRepository { g.order registry with repositoryUrl := url })
  | ["migrate", "npm"], package :: _ => some (.migratePackage package (g.order registry))
  | ["ui-router"], _ =>
    let projects := (g.values.filter (·.1 == "project")).map fun (_, v) => (⟨v⟩ : Path)
    some (.migrateRouter projects (g.has "dry-run") (g.has "skip-dependency-check"))
  | ["rename"], package :: _ =>
    some (.rename package ((g.value? "version").getD Workspace.defaultMaintenanceVersion))
  | _, _ => none

/-- The levels of a command line, from the one that names lead to; `root` is the directory given so
    far, and `depth` more levels may follow. -/
def readFrom (registry : Option String) (root : String) (names : List String) :
    (depth : Nat) → List String → Request
  | 0, _ => .misused
  | depth + 1, arguments =>
    match levelOf? names with
    | none => .misused
    | some l =>
      match readLevel l {} arguments with
      | .misused => .misused
      | .showVersion => .showVersion
      | .showHelp => .showHelp
      | .command g name rest =>
        readFrom registry ((g.value? "root").getD root) (names ++ [name]) depth rest
      | .complete g =>
        match commandOf? registry names g with
        | some c => .run ⟨⟨(g.value? "root").getD root⟩, c⟩
        | none => .misused

/-- How a command line is understood. -/
def Request.ofArguments (registry : Option String) (arguments : List String) : Request :=
  readFrom registry "." [] 3 arguments

end RouterShift.CommandLine
