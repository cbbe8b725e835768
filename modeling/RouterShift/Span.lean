import RouterShift.Text.Cut

/-! Spans: half-open byte ranges into one text. Every finding of the library (a tag, an attribute,
    a template literal, a parameter list) is a span of the text it was found in, and every change
    is a span with its new text. A span is a pair of numbers and may point nowhere; whether a text
    can be cut along it is asked with `slice?`. -/

namespace RouterShift

/-- The bytes from `start` up to and without `stop`. -/
structure Span where
  start : Nat
  stop : Nat
  deriving Repr, DecidableEq, Inhabited

namespace Span

def length (s : Span) : Nat := s.stop - s.start

def isEmpty (s : Span) : Bool := s.start == s.stop

/-- The other span lies inside this one. -/
def contains (s other : Span) : Bool := s.start ≤ other.start && other.stop ≤ s.stop

/-- The two spans share a byte; two insertions at one place also overlap, since nothing would
    say which comes first. -/
def overlaps (s other : Span) : Bool :=
  if s.isEmpty && other.isEmpty then s.start == other.start
  else s.start < other.stop && other.start < s.stop

/-- The text along the span, when it lies on character boundaries inside the text. -/
def slice? (s : Span) (text : String) : Option String :=
  (Text.slice? text.toList s.start s.stop).map String.ofList

/-- The half-open interval as it is shown to a reader. -/
def render (s : Span) : String := s!"[{s.start}, {s.stop})"

end Span
end RouterShift
