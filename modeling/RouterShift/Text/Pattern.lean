import RouterShift.Text.Blank
import RouterShift.Text.Cut
import RouterShift.Text.Number

/-! Patterns for messages: fixed wording with fields in it. Every field takes the longest run it can,
    and no field is followed by wording that starts with a character the field could have taken, so
    there is only one way to match at a given place and nothing is ever taken back. -/

namespace RouterShift.Text

/-- A part of a pattern. -/
inductive Piece
  | wording (text : String)
  /-- A field: a nonempty run without a character. -/
  | without (stop : Char)
  /-- A field: a nonempty run without blanks. -/
  | word
  /-- A field: `least` to three numbers with dots between them. -/
  | version (least : Nat)
  deriving Repr, DecidableEq

abbrev Pattern := List Piece

/-- Up to `n` more numbers, each behind a dot: how many there are, their text, what follows it. -/
def moreNumbers : Nat → List Char → Nat × List Char × List Char
  | n + 1, '.' :: cs =>
    let digits := cs.takeWhile isAnyDigit
    if digits.isEmpty then (0, [], '.' :: cs)
    else
      let (count, more, rest) := moreNumbers n (cs.dropWhile isAnyDigit)
      (count + 1, '.' :: digits ++ more, rest)
  | _, cs => (0, [], cs)

/-- A nonempty run of a class, and what follows it. -/
def run? (inRun : Char → Bool) (cs : List Char) : Option (List Char × List Char) :=
  let taken := cs.takeWhile inRun
  if taken.isEmpty then none else some (taken, cs.dropWhile inRun)

/-- The fields of a piece (wording has none) at the start of a text, and what follows. -/
def Piece.read? : Piece → List Char → Option (List String × List Char)
  | wording text, cs => (afterStart? text.toList cs).map fun rest => ([], rest)
  | without stop, cs => (run? (· != stop) cs).map fun (f, rest) => ([String.ofList f], rest)
  | word, cs => (run? (!isBlank ·) cs).map fun (f, rest) => ([String.ofList f], rest)
  | version least, cs => do
    let (first, rest) ← run? isAnyDigit cs
    let (count, more, rest) := moreNumbers 2 rest
    if least ≤ count + 1 then some ([String.ofList (first ++ more)], rest) else none

namespace Pattern

/-- The fields of a pattern at the start of a text, and what follows. -/
def read? : Pattern → List Char → Option (List String × List Char)
  | [], cs => some ([], cs)
  | piece :: pieces, cs => do
    let (fields, rest) ← piece.read? cs
    let (more, rest) ← read? pieces rest
    return (fields ++ more, rest)

/-- The fields where a pattern first matches, and what follows. -/
def first? (p : Pattern) : List Char → Option (List String × List Char)
  | [] => p.read? []
  | c :: cs => (p.read? (c :: cs)).or (first? p cs)

/-- The fields of all matches, from the left and not overlapping. -/
def all (p : Pattern) (cs : List Char) : List (List String) :=
  match p.first? cs with
  | none => []
  | some (fields, rest) => if rest.length < cs.length then fields :: all p rest else [fields]
termination_by cs.length

/-- The pattern matches somewhere. -/
def occursIn (p : Pattern) (cs : List Char) : Bool := (p.first? cs).isSome

end Pattern
end RouterShift.Text
