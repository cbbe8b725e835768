import RouterShift.Text.Cut

/-! Styles of terminal text. A style is switched on in front of a text and everything is switched
    off behind it; where the text itself switches everything off, the style is switched on again. -/

namespace RouterShift.Console

inductive Style
  | green
  | yellow
  | red
  | boldYellow
  | underline
  deriving Repr, DecidableEq

def escapeChar : Char := '\x1b'

def Style.start (s : Style) : String :=
  let code := match s with
    | .green => "32"
    | .yellow => "33"
    | .red => "31"
    | .boldYellow => "1;33"
    | .underline => "4"
  String.ofList [escapeChar, '['] ++ code ++ "m"

/-- Switches all styles off. -/
def resetAll : String := String.ofList [escapeChar, '['] ++ "0m"

/-- A text in a style, or as it is when colors are off. -/
def Style.paint (s : Style) (color : Bool) (text : String) : String :=
  if color then
    let inner := Text.replaceAll resetAll.toList (resetAll ++ s.start).toList text.toList
    s.start ++ String.ofList inner ++ resetAll
  else text

end RouterShift.Console
