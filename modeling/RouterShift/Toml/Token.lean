import RouterShift.Json.Reader
import RouterShift.Text.Cut

/-! The tokens of TOML: marks, line ends, quoted texts, and runs of anything else. Comments are left
    out and blanks are kept with the token behind them, since a few things must not have any in
    them. No control character but tab may stand anywhere, and no carriage return without a line
    feed after it. -/

namespace RouterShift.Toml

/-- What a token is. -/
inductive Symbol
  | mark (c : Char)
  | lineEnd
  | quoted (text : String) (manyLines : Bool)
  | run (text : String)
  deriving Repr, DecidableEq

/-- A token and the blanks in front of it. -/
structure Token where
  gap : List Char
  symbol : Symbol
  deriving Repr, DecidableEq

def isBlank (c : Char) : Bool := c == ' ' || c == '\t'

def isMark (c : Char) : Bool := ['.', '=', ',', '[', ']', '\x7b', '\x7d'].contains c

/-- A character that may stand in comments and texts. -/
def isPlain (c : Char) : Bool := c == '\t' || (0x20 ≤ c.toNat && c.toNat != 0x7F)

/-- A character of a run. -/
def isRunChar (c : Char) : Bool := isPlain c && !isBlank c && !isMark c && c != '#'

/-- A line end and what follows it. -/
def afterLineEnd? : List Char → Option (List Char)
  | '\n' :: cs => some cs
  | '\r' :: '\n' :: cs => some cs
  | _ => none

/-! ### Quoted texts -/

/-- The value of hexadecimal digits. -/
def hexValue? (digits : List Char) : Option Nat :=
  digits.foldlM (fun n c => (Json.hexValue? c).map (n * 16 + ·)) 0

/-- The character that an escape with a code stands for. -/
def codeChar? (digits : List Char) : Option Char := do
  let n ← hexValue? digits
  if n.isValidChar then some (Char.ofNat n) else none

/-- The character that an escape stands for behind its backslash, and what follows. -/
def escape? : List Char → Option (Char × List Char)
  | 'u' :: cs =>
    if 4 ≤ cs.length then (codeChar? (cs.take 4)).map (·, cs.drop 4) else none
  | 'U' :: cs =>
    if 8 ≤ cs.length then (codeChar? (cs.take 8)).map (·, cs.drop 8) else none
  | '/' :: _ => none
  | c :: cs => (Json.escaped? c).map (·, cs)
  | [] => none

/-- What follows blanks with at least one line end among them. -/
def afterFold? (cs : List Char) : Option (List Char) :=
  (afterLineEnd? (cs.dropWhile isBlank)).map fun rest =>
    rest.dropWhile fun c => isBlank c || c == '\n' || c == '\r'

/-- The quotes at the end of a text on many lines: three close it, and up to two in front of them
    belong to it. None when fewer than three come here. -/
def closing? (quote : Char) (cs : List Char) : Option (List Char × List Char) :=
  let quotes := (cs.takeWhile (· == quote)).length
  if quotes < 3 then none
  else
    let own := min (quotes - 3) 2
    some (List.replicate own quote, cs.drop (own + 3))

/-- A text up to its closing quotes, and what follows them. Escapes count between double quotes;
    line ends only in a text on many lines, where they are line feeds. `fuel` is more than the
    number of characters. -/
def text? (quote : Char) (manyLines : Bool) :
    (fuel : Nat) → List Char → Option (List Char × List Char)
  | 0, _ => none
  | _, [] => none
  | fuel + 1, c :: cs =>
    let more (front : List Char) (cs : List Char) : Option (List Char × List Char) :=
      (text? quote manyLines fuel cs).map fun (text, rest) => (front ++ text, rest)
    if c = quote then
      if manyLines then (closing? quote (c :: cs)).or (more [c] cs) else some ([], cs)
    else if c = '\\' && quote = '"' then
      match (if manyLines then afterFold? cs else none), escape? cs with
      | some rest, _ => more [] rest
      | none, some (e, rest) => more [e] rest
      | none, none => none
    else if isPlain c then more [c] cs
    else if manyLines then (afterLineEnd? (c :: cs)).bind (more ['\n'])
    else none

/-- A quoted text that starts here, and what follows it. A line end right behind three quotes does
    not count. -/
def quoted? (quote : Char) (cs : List Char) : Option (Symbol × List Char) :=
  match Text.afterStart? [quote, quote, quote] cs with
  | some rest =>
    let body := (afterLineEnd? rest).getD rest
    (text? quote true (body.length + 1) body).map fun (text, rest) =>
      (.quoted (String.ofList text) true, rest)
  | none =>
    (text? quote false cs.length (cs.drop 1)).map fun (text, rest) =>
      (.quoted (String.ofList text) false, rest)

/-! ### Tokens -/

/-- What is left after a comment, if one starts here. -/
def dropComment : List Char → List Char
  | '#' :: cs => cs.dropWhile isPlain
  | cs => cs

/-- The symbol that starts here, and what follows it. -/
def symbol? (cs : List Char) : Option (Symbol × List Char) :=
  match afterLineEnd? cs, cs with
  | some rest, _ => some (.lineEnd, rest)
  | none, [] => none
  | none, c :: rest =>
    if isMark c then some (.mark c, rest)
    else if c = '"' || c = '\'' then quoted? c cs
    else if isRunChar c then
      some (.run (String.ofList (cs.takeWhile isRunChar)), cs.dropWhile isRunChar)
    else none

/-- The tokens of a text; none when something in it is no token. -/
def tokens? (cs : List Char) : Option (List Token) :=
  let start := dropComment (cs.dropWhile isBlank)
  if start.isEmpty then some []
  else
    match symbol? start with
    | none => none
    | some (symbol, rest) =>
      if rest.length < cs.length then
        (tokens? rest).map (⟨cs.takeWhile isBlank, symbol⟩ :: ·)
      else none
termination_by cs.length

end RouterShift.Toml
