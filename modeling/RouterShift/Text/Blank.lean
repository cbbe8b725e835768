/-! The character classes of white space. A template's tags are cut at ASCII blanks, version
    ranges and headers are trimmed of everything Unicode calls `White_Space`; the two differ at
    the vertical tab already. -/

namespace RouterShift.Text

/-- Space, tab, line feed, form feed and carriage return. -/
def isAsciiBlank (c : Char) : Bool :=
  c == ' ' || c == '\t' || c == '\n' || c == '\x0c' || c == '\r'

/-- The property `White_Space`. -/
def isBlank (c : Char) : Bool :=
  let n := c.toNat
  (0x09 ≤ n && n ≤ 0x0D) || n == 0x20 || n == 0x85 || n == 0xA0 || n == 0x1680
    || (0x2000 ≤ n && n ≤ 0x200A) || n == 0x2028 || n == 0x2029 || n == 0x202F || n == 0x205F
    || n == 0x3000

/-- A letter of the ASCII alphabet in lower case, anything else unchanged. -/
def lower (c : Char) : Char :=
  if 'A' ≤ c && c ≤ 'Z' then Char.ofNat (c.toNat + 32) else c

/-- Equality of names up to the case of ASCII letters. -/
def sameName (a b : List Char) : Bool := a.map lower == b.map lower

/-- The text without white space at either end. -/
def trimBlank (s : String) : String :=
  String.ofList (((s.toList.dropWhile isBlank).reverse.dropWhile isBlank).reverse)

end RouterShift.Text
