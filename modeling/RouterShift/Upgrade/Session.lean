import RouterShift.Package.Manifest
import RouterShift.Upgrade.Command

/-! The course of an upgrade. A session holds the tree of files, the state of the runner, and a trace
    of everything that happened, in order: steps that began or were finished, what was said, the
    commands that ran and how they went. A step of work may fail, but what it did until then stays
    done, so an upgrade can be judged by its trace whatever becomes of it. -/

namespace RouterShift.Upgrade

/-- The manner in which something is said. -/
inductive Tone
  | success
  | warning
  | failure
  deriving Repr, DecidableEq

/-- Something that happened. -/
inductive Event
  | started (label : String)
  | finished (label : String)
  | said (tone : Tone) (text : String)
  | ran (command : String) (directory : Path) (outcome : Outcome)

/-- How things stand in the course of an upgrade. -/
structure Session (ρ : Type) where
  tree : Entry
  runner : ρ
  trace : List Event := []

/-- Work that may fail with an `ε`; the session goes on from where it failed. -/
abbrev Work (ρ ε : Type) := ExceptT ε (StateM (Session ρ))

namespace Work

variable {ρ ε δ α : Type}

def note (e : Event) : Work ρ ε Unit := modify fun s => { s with trace := s.trace ++ [e] }

def say (tone : Tone) (text : String) : Work ρ ε Unit := note (.said tone text)

/-- A command given to the runner; that it failed is an answer like any other. -/
def attempt (runner : Runner ρ) (command : String) (directory : Path) : Work ρ ε Outcome := do
  let s ← get
  let (outcome, state, tree) := runner s.runner s.tree command directory
  set { s with runner := state, tree := tree }
  note (.ran command directory outcome)
  return outcome

/-- A command that has to succeed. -/
def command (runner : Runner ρ) (line : String) (directory : Path) :
    Work ρ CommandFailure Unit := do
  match ← attempt runner line directory with
  | .ok _ => return ()
  | .error f => throw f

/-- Work whose failures are causes of failures of another kind. -/
def causing (cause : δ → ε) (work : Work ρ δ α) : Work ρ ε α :=
  ExceptT.mk ((·.mapError cause) <$> ExceptT.run work)

/-- Work between the two ends of a step, of which only success reaches the second. -/
def step (label : String) (work : Work ρ ε α) : Work ρ ε α := do
  note (.started label)
  let a ← work
  note (.finished label)
  return a

/-- What a piece of work comes to when it starts from a session, and the session after it. -/
def start (work : Work ρ ε α) (s : Session ρ) : Except ε α × Session ρ :=
  StateT.run (ExceptT.run work) s

/-- What a piece of work came to, be it failure, for others to look at. -/
def result (work : Work ρ δ α) : Work ρ ε (Except δ α) := ExceptT.lift (ExceptT.run work)

/-- The manifest at a path of the tree. -/
def loadManifest (path : Path) : Work ρ ManifestError Manifest := do
  let s ← get
  match s.tree.readText? [] path with
  | none => throw (.io path)
  | some text => MonadExcept.ofExcept (Manifest.parse path text)

/-- The manifest written to a path of the tree. -/
def saveManifest (path : Path) (m : Manifest) : Work ρ ManifestError Unit := do
  let s ← get
  match s.tree.writeAt? [] path (.ofString m.render) with
  | none => throw (.io path)
  | some tree => set { s with tree := tree }

end Work
end RouterShift.Upgrade
