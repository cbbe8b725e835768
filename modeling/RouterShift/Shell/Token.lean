import RouterShift.Shell.Script
import RouterShift.Text.Cut

/-! The tokens of scripts: words with their quotes resolved, operators, and redirections. -/

namespace RouterShift.Shell

inductive Token
  | word (w : Word)
  | operator (s : String)
  /-- A stream and the sign that leads it elsewhere. -/
  | redirection (stream : Nat) (sign : String)
  deriving Repr, DecidableEq, Inhabited

def isBlank (c : Char) : Bool := c == ' ' || c == '\t'

/-- A character that ends a word unless it is quoted. -/
def isMeta (c : Char) : Bool := isBlank c || ['\n', ';', '&', '|', '<', '>', '(', ')'].contains c

def isNameStart (c : Char) : Bool := ('a' ≤ c && c ≤ 'z') || ('A' ≤ c && c ≤ 'Z') || c == '_'

def isDigit (c : Char) : Bool := '0' ≤ c && c ≤ '9'

def isNameChar (c : Char) : Bool := isNameStart c || isDigit c

/-- A parameter with a name of one sign. -/
def isSign (c : Char) : Bool := isDigit c || ['*', '@', '#', '?', '$', '!', '-'].contains c

/-- What stands in parentheses up to the one that closes them, and what follows. -/
def inParentheses? : (depth : Nat) → (quote : Option Char) → List Char →
    Option (List Char × List Char)
  | _, _, [] => none
  | depth, some q, c :: cs =>
    (inParentheses? depth (if c = q then none else some q) cs).map fun (s, rest) => (c :: s, rest)
  | depth, none, c :: cs =>
    let more (depth : Nat) (quote : Option Char) : Option (List Char × List Char) :=
      (inParentheses? depth quote cs).map fun (s, rest) => (c :: s, rest)
    if c = '\'' || c = '"' then more depth (some c)
    else if c = '(' then more (depth + 1) none
    else if c = ')' then
      match depth with
      | 0 => some ([], cs)
      | d + 1 => more d none
    else more depth none

/-- What stands up to a back quote, backslashes before special characters taken away. -/
def inBackQuotes? : List Char → Option (List Char × List Char)
  | [] => none
  | '\x60' :: cs => some ([], cs)
  | '\\' :: c :: cs =>
    let front := if c = '\x60' || c = '$' || c = '\\' then [c] else ['\\', c]
    (inBackQuotes? cs).map fun (s, rest) => (front ++ s, rest)
  | c :: cs => (inBackQuotes? cs).map fun (s, rest) => (c :: s, rest)

/-- A parameter in braces, behind the brace. -/
def braced? (inQuotes : Bool) (cs : List Char) : Option (Part × List Char) :=
  match Text.cutFirst? ['\x7d'] cs with
  | none => none
  | some (inner, rest) =>
    let name := if inner.head?.any isNameStart then inner.takeWhile isNameChar else inner.take 1
    let part (default : Option String) : Option (Part × List Char) :=
      some (.parameter (String.ofList name) default inQuotes, rest)
    match inner.drop name.length with
    | [] => if name.isEmpty then none else part none
    | ':' :: '-' :: d => part (some (String.ofList d))
    | _ => none

/-- What is put in the place of a dollar sign, from behind it; nothing when it stands for itself. -/
def dollar? (inQuotes : Bool) : List Char → Option (Option Part × List Char)
  | '\x7b' :: cs => (braced? inQuotes cs).map fun (p, rest) => (some p, rest)
  | '(' :: cs => (inParentheses? 0 none cs).map fun (s, rest) =>
      (some (.output (String.ofList s) inQuotes), rest)
  | c :: cs =>
    if isNameStart c then
      some (some (.parameter (String.ofList (c :: cs.takeWhile isNameChar)) none inQuotes),
        cs.dropWhile isNameChar)
    else if isSign c then some (some (.parameter c.toString none inQuotes), cs)
    else some (none, c :: cs)
  | [] => some (none, [])

/-- The parts of a text in double quotes, up to and with its closing quote. `fuel` is more than the
    number of characters. -/
def quotedParts? : (fuel : Nat) → List Char → Option (List Part × List Char)
  | 0, _ => none
  | _, [] => none
  | fuel + 1, c :: cs =>
    let more (p : Part) (cs : List Char) : Option (List Part × List Char) :=
      (quotedParts? fuel cs).map fun (parts, rest) => (p :: parts, rest)
    match c, cs with
    | '"', _ => some ([], cs)
    | '\\', '\n' :: rest => quotedParts? fuel rest
    | '\\', e :: rest =>
      if ['$', '\x60', '"', '\\'].contains e then more (.text e.toString) rest
      else more (.text "\\") cs
    | '$', _ => do
      let (part, rest) ← dollar? true cs
      more (part.getD (.text "$")) rest
    | '\x60', _ => do
      let (s, rest) ← inBackQuotes? cs
      more (.output (String.ofList s) true) rest
    | _, _ => more (.text c.toString) cs

/-- The parts of a word, and what follows it. `fuel` is more than the number of characters. -/
def wordParts? : (fuel : Nat) → List Char → Option (Word × List Char)
  | 0, _ => none
  | _, [] => some ([], [])
  | fuel + 1, c :: cs =>
    let more (ps : List Part) (cs : List Char) : Option (Word × List Char) :=
      (wordParts? fuel cs).map fun (parts, rest) => (ps ++ parts, rest)
    match c, cs with
    | '\\', '\n' :: rest => wordParts? fuel rest
    | '\\', e :: rest => more [.text e.toString] rest
    | '\'', _ => do
      let (s, rest) ← Text.cutFirst? ['\''] cs
      more [.text (String.ofList s)] rest
    | '"', _ => do
      let (parts, rest) ← quotedParts? (cs.length + 1) cs
      more (if parts.isEmpty then [.text ""] else parts) rest
    | '$', _ => do
      let (part, rest) ← dollar? false cs
      more [part.getD (.text "$")] rest
    | '\x60', _ => do
      let (s, rest) ← inBackQuotes? cs
      more [.output (String.ofList s) false] rest
    | _, _ =>
      if isMeta c then some ([], c :: cs)
      else if c = '*' || c = '?' then more [.wild c] cs
      else more [.text c.toString] cs

/-- The operators, longer ones first. -/
def operators : List String := ["&&", "||", ";;", ";", "|", "&", "\n", "(", ")"]

/-- The signs of redirections, longer ones first. -/
def redirections : List String := [">>", ">&", "<", ">"]

/-- The first of some texts that comes here, and what follows it. -/
def firstOf? (texts : List String) (cs : List Char) : Option (String × List Char) :=
  texts.findSome? fun t => (Text.afterStart? t.toList cs).map (t, ·)

/-- A redirection with the number of its stream, if that is given. -/
def redirection? (cs : List Char) : Option (Token × List Char) :=
  let (number, behind) := match cs with
    | c :: rest => if isDigit c then (some (c.toNat - '0'.toNat), rest) else (none, cs)
    | [] => (none, cs)
  (firstOf? redirections behind).map fun (sign, rest) =>
    (.redirection (number.getD (if sign = "<" then 0 else 1)) sign, rest)

/-- The token that starts here, and what follows it. -/
def token? (cs : List Char) : Option (Token × List Char) :=
  match redirection? cs, firstOf? operators cs with
  | some found, _ => some found
  | none, some (s, rest) => some (.operator s, rest)
  | none, none => (wordParts? (cs.length + 1) cs).map fun (w, rest) => (.word w, rest)

/-- The tokens of a script; none when a quote is not closed. -/
def tokens? (cs : List Char) : Option (List Token) :=
  let start := cs.dropWhile isBlank
  match start with
  | [] => some []
  | c :: _ =>
    let start := if c = '#' then start.dropWhile (· != '\n') else start
    if start.isEmpty then some []
    else
      match token? start with
      | none => none
      | some (t, rest) => if rest.length < cs.length then (tokens? rest).map (t :: ·) else none
termination_by cs.length

end RouterShift.Shell
