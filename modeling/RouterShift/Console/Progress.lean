import RouterShift.Console.Style
import RouterShift.Upgrade.Session

/-! What a terminal shows of an upgrade: a box in front of each step, ticked when the step is done,
    and what was said. Failures go where errors go, everything else to the ordinary output. -/

namespace RouterShift.Console

open Upgrade (Event Tone)

/-- The tick of a finished step. -/
def tick : String := "✔"

def toneStyle : Tone → Style
  | .success => .green
  | .warning => .yellow
  | .failure => .red

/-- The line that an event is shown as on the ordinary output. -/
def outputLine? (color : Bool) : Event → Option String
  | .started label => some s!"[ ] {label}"
  | .finished label => some s!"[{Style.green.paint color tick}] {label}"
  | .said .failure _ => none
  | .said tone text => some ((toneStyle tone).paint color text)
  | .ran .. => none

/-- The line that an event is shown as among errors. -/
def errorLine? (color : Bool) : Event → Option String
  | .said .failure text => some ((toneStyle .failure).paint color text)
  | _ => none

/-- Lines as text, each with a line feed. -/
def lines (l : List String) : String := String.join (l.map (· ++ "\n"))

/-- What is shown on the ordinary output. -/
def output (color : Bool) (trace : List Event) : String :=
  lines (trace.filterMap (outputLine? color))

/-- What is shown among errors. -/
def errors (color : Bool) (trace : List Event) : String :=
  lines (trace.filterMap (errorLine? color))

end RouterShift.Console
