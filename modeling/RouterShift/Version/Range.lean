import RouterShift.Version.Requirement

/-! Ranges as package manifests write them: alternatives between `||`, comparators between blanks,
    a bare version for exactly that version. Each alternative is brought into the form of a
    requirement, which separates comparators by commas and takes a bare version for a caret. -/

namespace RouterShift.Range

def isOperatorChar (c : Char) : Bool :=
  c == '<' || c == '>' || c == '=' || c == '~' || c == '^'

/-- The alternatives that any release satisfies. -/
def anyForms : List String := ["", "*", "x", "X", "latest"]

/-- A part of a version with `x` written as the wildcard `*`. -/
def star (part : List Char) : List Char := if part = ['x'] || part = ['X'] then ['*'] else part

/-- One comparator in the form of a requirement: a bare version becomes an exact one, a wildcard
    without operator stays, and behind an operator the wildcard parts are left out. -/
def comparatorText (comparator : List Char) : List Char :=
  let op := comparator.takeWhile isOperatorChar
  let body := comparator.dropWhile isOperatorChar
  let body := (Version.after? 'v' body).getD body
  let body := List.intercalate ['.'] ((Text.splitAt (· == '.') body).map star)
  if op = [] || op = ['='] then if body.contains '*' then body else '=' :: body
  else if body.contains '*' then op ++ Text.dropEnd ['.', '*'] body
  else op ++ body

/-- The comparators between blanks, each with the operators that stand alone before it; operators
    that nothing follows are dropped. -/
def joinOperators (pending : List Char) : List (List Char) → List (List Char)
  | [] => []
  | token :: rest =>
    if token.all isOperatorChar then joinOperators (pending ++ token) rest
    else (pending ++ token) :: joinOperators [] rest

/-- The requirement of one alternative. -/
def requirement? (alternative : List Char) : Option Requirement :=
  let alternative := Text.trim Text.isBlank alternative
  if anyForms.any (·.toList == alternative) then some .any
  else
    match Text.cutFirst? [' ', '-', ' '] alternative with
    | some (low, high) =>
      Requirement.ofChars? (['>', '='] ++ Text.trim Text.isBlank low ++ [',', ' ', '<', '=']
        ++ Text.trim Text.isBlank high)
    | none =>
      match (joinOperators [] (Text.words Text.isBlank alternative)).map comparatorText with
      | [] => none
      | comparators => Requirement.ofChars? (List.intercalate [',', ' '] comparators)

/-- The requirements of a range; an alternative that is no requirement admits nothing. -/
def requirements (range : String) : List Requirement :=
  (Text.splitOn ['|', '|'] range.toList).filterMap requirement?

/-- The range admits the version; a text that is no version is admitted nowhere. -/
def admits (range version : String) : Bool :=
  match Version.parse? version with
  | none => false
  | some v => (requirements range).any (·.admits v)

end RouterShift.Range
