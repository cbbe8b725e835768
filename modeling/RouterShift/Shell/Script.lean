/-! Scripts of a small shell. A script is made of commands, each a list of words; a word is made of
    parts that are taken as they stand or are replaced by what they name. -/

namespace RouterShift.Shell

/-- A part of a word. What stands in quotes is never split into several words. -/
inductive Part
  | text (s : String)
  /-- A sign that stands for any characters (`*`) or for any one (`?`) in the names of files. -/
  | wild (sign : Char)
  /-- The value of a parameter, or a default where it has none. -/
  | parameter (name : String) (default : Option String) (inQuotes : Bool)
  /-- What a script of its own writes. -/
  | output (script : String) (inQuotes : Bool)
  deriving Repr, DecidableEq, Inhabited

abbrev Word := List Part

/-- Where a stream leads. -/
inductive Target
  | file (name : Word) (appends : Bool)
  | source (name : Word)
  | stream (n : Nat)
  deriving Repr, DecidableEq, Inhabited

/-- A stream of a command led elsewhere. -/
structure Redirection where
  stream : Nat
  target : Target
  deriving Repr, DecidableEq, Inhabited

inductive Script
  | nothing
  /-- Variables that are set, a command and its arguments, and where its streams lead. -/
  | simple (assignments : List (String × Word)) (words : List Word)
      (redirections : List Redirection)
  /-- A list in braces, or in parentheses: then it runs on its own. -/
  | group (body : Script) (alone : Bool) (redirections : List Redirection)
  | pipe (first second : Script)
  | both (first second : Script)
  | either (first second : Script)
  | sequence (first second : Script)
  | opposite (body : Script)
  | choice (test body otherwise : Script)
  /-- Runs as long as the test has the wanted result. -/
  | loop (test : Script) (wanted : Bool) (body : Script)
  | each (name : String) (words : List Word) (body : Script)
  deriving Repr, Inhabited

end RouterShift.Shell
