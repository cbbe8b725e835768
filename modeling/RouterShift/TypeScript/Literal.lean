import RouterShift.Span

/-! String and template literals, addressed by what stands between their delimiters. The only
    escape that is undone is that of the delimiter: everything else in a literal reads as it is
    written, so undoing and redoing it leaves a literal as it was. -/

namespace RouterShift.TypeScript

/-- A literal in a source. -/
structure Literal where
  /-- Between the delimiters. -/
  span : Span
  delimiter : Char
  /-- What stands between the delimiters, nothing undone. -/
  raw : String
  deriving Repr, DecidableEq

namespace Literal

/-- The text with its escaped delimiters undone; a backslash keeps the character behind it. -/
def unescape (delimiter : Char) : List Char → List Char
  | [] => []
  | '\\' :: c :: rest =>
    if c = delimiter then c :: unescape delimiter rest else '\\' :: c :: unescape delimiter rest
  | c :: rest => c :: unescape delimiter rest

/-- The text with a backslash before every delimiter that has none. -/
def escape (delimiter : Char) : List Char → List Char
  | [] => []
  | '\\' :: c :: rest => '\\' :: c :: escape delimiter rest
  | c :: rest =>
    if c = delimiter ∧ c ≠ '\\' then '\\' :: c :: escape delimiter rest
    else c :: escape delimiter rest

/-- What the literal says. -/
def value (l : Literal) : String := String.ofList (unescape l.delimiter l.raw.toList)

/-- How a text is written between the delimiters of the literal. -/
def write (l : Literal) (text : String) : String :=
  String.ofList (escape l.delimiter text.toList)

end Literal
end RouterShift.TypeScript
