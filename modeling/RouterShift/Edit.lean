import RouterShift.Span

/-! Applying many replacements to one text. All spans address the text as it was; they are made
    from the back to the front, so that a replacement never moves a place another one still has
    to find. Of two overlapping replacements the one further back wins (of two with one start,
    the longer), and the loser is reported, not made. A span that no text could be cut along is an
    error before anything is done. -/

namespace RouterShift

/-- A span and the text that takes its place. -/
structure Replacement where
  range : Span
  text : String
  deriving Repr, DecidableEq

/-- A pure insertion. -/
def Replacement.insert (offset : Nat) (text : String) : Replacement := ⟨⟨offset, offset⟩, text⟩

/-- Why a span cannot be addressed in a text. -/
inductive EditError
  /-- It ends before it starts, or past the end of the text. -/
  | outOfBounds (span : Span) (length : Nat)
  /-- One of its ends is inside a character. -/
  | charBoundary (span : Span)
  deriving Repr, DecidableEq

def EditError.message : EditError → String
  | .outOfBounds span length => s!"span {span.render} is out of bounds for a buffer of {length} bytes"
  | .charBoundary span => s!"span {span.render} does not fall on a char boundary"

/-- What came of a batch of replacements: the new text, the replacements made in the order they
    were made, and those left out because they overlapped one already made. -/
structure EditOutcome where
  text : String
  applied : List Replacement
  skipped : List Replacement
  deriving Repr, DecidableEq

namespace Edit

/-- The reason why a span does not address a text, if there is one; bounds are looked at first. -/
def fault? (cs : List Char) (span : Span) : Option EditError :=
  let length := Text.byteLength cs
  if span.start > span.stop || span.stop > length then some (.outOfBounds span length)
  else if !Text.isBoundary cs span.start || !Text.isBoundary cs span.stop then
    some (.charBoundary span)
  else none

/-- The order in which replacements are made: from the back, of two with one start the longer. -/
def isBefore (a b : Replacement) : Bool :=
  b.range.start < a.range.start ||
    (a.range.start == b.range.start && b.range.stop ≤ a.range.stop)

/-- Whether a replacement can still be made when `made` was the last one. -/
def fits (made : Option Span) (r : Replacement) : Bool :=
  match made with
  | none => true
  | some last => !(r.range.stop > last.start || r.range.overlaps last)

/-- The replacements to make and those to leave out, from a list in the order of `isBefore`. -/
def choose (made : Option Span) : List Replacement → List Replacement × List Replacement
  | [] => ([], [])
  | r :: rest =>
    if fits made r then
      let (kept, left) := choose (some r.range) rest
      (r :: kept, left)
    else
      let (kept, left) := choose made rest
      (kept, r :: left)

/-- One replacement made; a text that cannot be cut there is left as it is. -/
def splice (cs : List Char) (r : Replacement) : List Char :=
  match Text.cutAt? cs r.range.stop with
  | none => cs
  | some (front, back) =>
    match Text.cutAt? front r.range.start with
    | none => cs
    | some (kept, _) => kept ++ r.text.toList ++ back

end Edit

/-- All replacements made to one text, or the fault of the first span that has one. -/
def applyEdits (text : String) (replacements : List Replacement) : Except EditError EditOutcome :=
  let cs := text.toList
  match replacements.findSome? fun r => Edit.fault? cs r.range with
  | some fault => .error fault
  | none =>
    let (kept, left) := Edit.choose none (replacements.mergeSort Edit.isBefore)
    .ok ⟨String.ofList (kept.foldl Edit.splice cs), kept, left⟩

end RouterShift
