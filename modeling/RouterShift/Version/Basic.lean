import RouterShift.Text.Blank
import RouterShift.Text.Cut
import RouterShift.Text.Number

/-! Semantic versions: three numbers of 64 bits, the identifiers of a pre-release and those of a
    build. Versions are ordered by their numbers, then by pre-release (a release comes after all of
    its pre-releases), then by build. -/

namespace RouterShift

/-- An identifier of a pre-release: a number or a word. A number has no leading zeros, so its value
    says how it is written. -/
inductive PreIdentifier
  | number (n : Nat)
  | word (s : String)
  deriving Repr, DecidableEq

/-- A semantic version. -/
structure Version where
  major : Nat
  minor : Nat
  patch : Nat
  pre : List PreIdentifier
  build : List String
  deriving Repr, DecidableEq

namespace PreIdentifier

def render : PreIdentifier → String
  | .number n => toString n
  | .word s => s

/-- Numbers by value, words by their characters, a number before a word. -/
def order : PreIdentifier → PreIdentifier → Ordering
  | .number a, .number b => compare a b
  | .number _, .word _ => .lt
  | .word _, .number _ => .gt
  | .word a, .word b => compare a b

/-- A segment as a pre-release identifier; digits alone must not start with a needless zero. -/
def ofSegment? (segment : List Char) : Option PreIdentifier :=
  if segment.all Text.isDigit then
    if segment.length > 1 && segment.head? = some '0' then none
    else some (.number (Text.valueOf segment))
  else some (.word (String.ofList segment))

end PreIdentifier

namespace Version

/-! ### Reading -/

def isIdentifierChar (c : Char) : Bool :=
  Text.isDigit c || ('a' ≤ c && c ≤ 'z') || ('A' ≤ c && c ≤ 'Z') || c == '-'

/-- The number at the start of a text: it fits 64 bits and has no needless zero in front. -/
def number? (cs : List Char) : Option (Nat × List Char) :=
  let digits := cs.takeWhile Text.isDigit
  if digits.length > 1 && digits.head? = some '0' then none
  else (Text.word? digits).map fun n => (n, cs.dropWhile Text.isDigit)

/-- The dot-separated segments at the start of a text, none of them empty. -/
def segments? (cs : List Char) : Option (List (List Char) × List Char) :=
  let inRun (c : Char) : Bool := isIdentifierChar c || c == '.'
  let segments := Text.splitAt (· == '.') (cs.takeWhile inRun)
  if segments.any List.isEmpty then none else some (segments, cs.dropWhile inRun)

/-- What follows a given character, if the text starts with it. -/
def after? (c : Char) (cs : List Char) : Option (List Char) := Text.afterStart? [c] cs

/-- The pre-release part at the start of a text: nothing, or identifiers behind a hyphen. -/
def pre? (cs : List Char) : Option (List PreIdentifier × List Char) :=
  match after? '-' cs with
  | none => some ([], cs)
  | some more => do
    let (segments, rest) ← segments? more
    return (← segments.mapM PreIdentifier.ofSegment?, rest)

/-- The build part at the start of a text: nothing, or identifiers behind a plus sign. -/
def build? (cs : List Char) : Option (List String × List Char) :=
  match after? '+' cs with
  | none => some ([], cs)
  | some more => do
    let (segments, rest) ← segments? more
    return (segments.map String.ofList, rest)

/-- A text that is a semantic version from its first character to its last. -/
def ofChars? (cs : List Char) : Option Version := do
  let (major, cs) ← number? cs
  let cs ← after? '.' cs
  let (minor, cs) ← number? cs
  let cs ← after? '.' cs
  let (patch, cs) ← number? cs
  let (pre, cs) ← pre? cs
  let (build, cs) ← build? cs
  if cs.isEmpty then some ⟨major, minor, patch, pre, build⟩ else none

/-- A version as packages write it: blanks around it and any `v` and `=` in front are passed
    over. -/
def parse? (text : String) : Option Version :=
  ofChars? ((Text.trim Text.isBlank text.toList).dropWhile fun c => c == 'v' || c == '=')

/-- The first run of ASCII digits of a version or range, as a number of 64 bits. -/
def majorOf? (text : String) : Option Nat :=
  Text.word? ((text.toList.dropWhile fun c => !Text.isDigit c).takeWhile Text.isDigit)

/-! ### Rendering and order -/

def preText (v : Version) : String := ".".intercalate (v.pre.map PreIdentifier.render)

def buildText (v : Version) : String := ".".intercalate v.build

/-- Order of lists by their first difference; a beginning comes first. -/
def orderList {α : Type} (order : α → α → Ordering) : List α → List α → Ordering
  | [], [] => .eq
  | [], _ :: _ => .lt
  | _ :: _, [] => .gt
  | a :: as, b :: bs => (order a b).then (orderList order as bs)

/-- Order of pre-releases: none at all comes last. -/
def orderPre : List PreIdentifier → List PreIdentifier → Ordering
  | [], [] => .eq
  | [], _ :: _ => .gt
  | _ :: _, [] => .lt
  | a, b => orderList PreIdentifier.order a b

/-- Order of build identifiers: numbers before words, by value, then by how many zeros lead. -/
def orderBuildIdentifier (a b : String) : Ordering :=
  match a.toList.all Text.isDigit, b.toList.all Text.isDigit with
  | true, true => (compare (Text.valueOf a.toList) (Text.valueOf b.toList)).then
      (compare a.length b.length)
  | true, false => .lt
  | false, true => .gt
  | false, false => compare a b

/-- The order of versions. -/
def order (a b : Version) : Ordering :=
  (compare a.major b.major).then ((compare a.minor b.minor).then ((compare a.patch b.patch).then
    ((orderPre a.pre b.pre).then (orderList orderBuildIdentifier a.build b.build))))

/-- The order of texts that may be versions: those that are none come first. -/
def orderTexts (a b : String) : Ordering :=
  match parse? a, parse? b with
  | none, none => .eq
  | none, some _ => .lt
  | some _, none => .gt
  | some v, some w => order v w

end Version
end RouterShift
