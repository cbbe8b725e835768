import RouterShift.Disk.Entry
import RouterShift.Text.Blank

/-! Commands that an upgrade has other programs carry out. What runs them is a runner: a function
    on its own state and on the tree of files, both of which it may change as it likes. -/

namespace RouterShift.Upgrade

/-- What a command that succeeded has written. -/
structure CommandOutput where
  stdout : String := ""
  stderr : String := ""
  deriving Repr, DecidableEq

/-- A command that could not be started or did not succeed. -/
structure CommandFailure where
  command : String
  stdout : String := ""
  stderr : String := ""
  /-- None when the command never ran or did not come to an end by itself. -/
  exitCode : Option Int := none
  deriving Repr, DecidableEq

namespace CommandFailure

def message (f : CommandFailure) : String :=
  let ending := match f.exitCode with
    | some code => s!"exit code {code}"
    | none => "did not run to completion"
  s!"command \x60{f.command}\x60 failed ({ending})"

/-- Where the reason of the failure is looked for: what was written as errors, or the ordinary
    output when nothing but blanks was. -/
def diagnostic (f : CommandFailure) : String :=
  if f.stderr.toList.all Text.isBlank then f.stdout else f.stderr

end CommandFailure

/-- How a command went. -/
abbrev Outcome := Except CommandFailure CommandOutput

/-- What runs commands in directories of the tree. -/
abbrev Runner (ρ : Type) :=
  (state : ρ) → (tree : Entry) → (command : String) → (directory : Path) →
    Outcome × ρ × Entry

end RouterShift.Upgrade
