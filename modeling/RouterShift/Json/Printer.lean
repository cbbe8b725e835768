import RouterShift.Json.Value

/-! Writing JSON: two more spaces for each level, one item or field a line, empty containers closed
    at once. Quotes, backslashes and control characters are escaped and nothing else is. -/

namespace RouterShift.Json

def hexDigit (n : Nat) : Char :=
  if n < 10 then Char.ofNat ('0'.toNat + n) else Char.ofNat ('a'.toNat + (n - 10))

/-- A character as it is written inside a string. -/
def escape (c : Char) : List Char :=
  if c = '"' then ['\\', '"']
  else if c = '\\' then ['\\', '\\']
  else if c = '\x08' then ['\\', 'b']
  else if c = '\t' then ['\\', 't']
  else if c = '\n' then ['\\', 'n']
  else if c = '\x0c' then ['\\', 'f']
  else if c = '\r' then ['\\', 'r']
  else if c.toNat < 0x20 then
    ['\\', 'u', '0', '0', hexDigit (c.toNat / 16), hexDigit (c.toNat % 16)]
  else [c]

def quote (s : String) : List Char := '"' :: (s.toList.flatMap escape ++ ['"'])

/-- The start of a line at a level. -/
def lineAt (level : Nat) : List Char := '\n' :: List.replicate (2 * level) ' '

mutual
/-- A value whose first character stands at a level. -/
def Value.pretty (level : Nat) : Value → List Char
  | .null => ['n', 'u', 'l', 'l']
  | .bool true => ['t', 'r', 'u', 'e']
  | .bool false => ['f', 'a', 'l', 's', 'e']
  | .number n => n.render
  | .string s => quote s
  | .array [] => ['[', ']']
  | .array (v :: rest) =>
    '[' :: (lineAt (level + 1) ++ v.pretty (level + 1) ++ prettyItems (level + 1) rest
      ++ lineAt level ++ [']'])
  | .object [] => ['\x7b', '\x7d']
  | .object ((k, v) :: rest) =>
    '\x7b' :: (lineAt (level + 1) ++ quote k ++ [':', ' '] ++ v.pretty (level + 1)
      ++ prettyFields (level + 1) rest ++ lineAt level ++ ['\x7d'])
  | .illFormed => ['n', 'u', 'l', 'l']

/-- The items behind the first. -/
def prettyItems (level : Nat) : List Value → List Char
  | [] => []
  | v :: rest => ',' :: (lineAt level ++ v.pretty level ++ prettyItems level rest)

/-- The fields behind the first. -/
def prettyFields (level : Nat) : Fields → List Char
  | [] => []
  | (k, v) :: rest =>
    ',' :: (lineAt level ++ quote k ++ [':', ' '] ++ v.pretty level ++ prettyFields level rest)
end

end RouterShift.Json
