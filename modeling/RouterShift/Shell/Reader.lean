import RouterShift.Shell.Token

/-! Reading scripts. Words like `if` have a meaning of their own where a command could start. Every
    reader takes what it can and hands on what is left; `fuel` is more than the number of tokens. -/

namespace RouterShift.Shell

/-- Why a text is no script. -/
inductive SyntaxError
  | openQuote
  /-- A token that cannot stand where it does (none: the end), and what should stand there. -/
  | unexpected (found : Option Token) (expected : Option String)
  deriving Repr, DecidableEq

def Token.name : Token → String
  | .word _ => "word"
  | .operator "\n" => "newline"
  | .operator s => s!"\"{s}\""
  | .redirection .. => "redirection"

def SyntaxError.message : SyntaxError → String
  | openQuote => "Syntax error: Unterminated quoted string"
  | unexpected found expected =>
    let what := found.elim "end of file" Token.name
    let wanted := expected.elim "" fun e => s!" (expecting \"{e}\")"
    s!"Syntax error: {what} unexpected{wanted}"

def refuse {α : Type} (ts : List Token) : Except SyntaxError α :=
  .error (.unexpected ts.head? none)

/-- The text of a part that is taken as it stands. -/
def Part.plain? : Part → Option String
  | .text s => some s
  | _ => none

/-- The text of a word that is written plainly. -/
def plain? (w : Word) : Option String := (w.mapM Part.plain?).map String.join

/-- The word at the start is the given one. -/
def startsWith (name : String) : List Token → Bool
  | .word w :: _ => w.length == name.length && plain? w == some name
  | _ => false

/-- The words that end a list of commands. -/
def endWords : List String := ["then", "else", "elif", "fi", "do", "done", "\x7d"]

def isListEnd (ts : List Token) : Bool :=
  ts.isEmpty || ts.head? = some (.operator ")") || endWords.any (startsWith · ts)

def skipLines (ts : List Token) : List Token := ts.dropWhile (· == .operator "\n")

/-- What follows the end of a command. -/
def afterSeparator? : List Token → Option (List Token)
  | .operator s :: ts => if s = ";" || s = "&" || s = "\n" then some (skipLines ts) else none
  | _ => none

/-- What follows a given word. -/
def after? (name : String) (ts : List Token) : Option (List Token) :=
  if startsWith name ts then some (ts.drop 1) else none

/-- What follows a word that has to come here. -/
def need (name : String) (ts : List Token) : Except SyntaxError (List Token) :=
  match after? name ts with
  | some ts => .ok ts
  | none => .error (.unexpected ts.head? (some name))

/-- The target of a redirection, and what follows it. -/
def target (sign : String) : List Token → Except SyntaxError (Target × List Token)
  | .word w :: ts =>
    match sign, plain? w with
    | ">", _ => .ok (.file w false, ts)
    | ">>", _ => .ok (.file w true, ts)
    | "<", _ => .ok (.source w, ts)
    | _, some "1" => .ok (.stream 1, ts)
    | _, some "2" => .ok (.stream 2, ts)
    | _, _ => refuse (.word w :: ts)
  | ts => refuse ts

/-- The redirections at the start, and what follows them. -/
def redirects : (fuel : Nat) → List Token → Except SyntaxError (List Redirection × List Token)
  | fuel + 1, .redirection stream sign :: ts => do
    let (target, ts) ← target sign ts
    let (more, ts) ← redirects fuel ts
    return (⟨stream, target⟩ :: more, ts)
  | _, ts => .ok ([], ts)

/-- A word that sets a variable: its name, and what it is set to. -/
def assignment? (w : Word) : Option (String × Word) :=
  let name := w.takeWhile fun p => p.plain?.any fun s => s.toList.all isNameChar && s.length == 1
  match w.drop name.length, plain? name with
  | .text "=" :: value, some n => if n.toList.head?.any isNameStart then some (n, value) else none
  | _, _ => none

/-- The word that sets a variable, put together again. -/
def setting (set : String × Word) : Word :=
  set.1.toList.map (.text ·.toString) ++ .text "=" :: set.2

/-- A simple command: what it sets, its words and redirections, and what follows it. -/
def simple : (fuel : Nat) → List Token →
    Except SyntaxError ((List (String × Word) × List Word × List Redirection) × List Token)
  | fuel + 1, .word w :: ts => do
    let ((sets, words, leads), rest) ← simple fuel ts
    match assignment? w with
    | some set => return ((set :: sets, words, leads), rest)
    | none => return (([], w :: sets.map setting ++ words, leads), rest)
  | fuel + 1, .redirection stream sign :: ts => do
    let (target, ts) ← target sign ts
    let ((sets, words, leads), rest) ← simple fuel ts
    return ((sets, words, ⟨stream, target⟩ :: leads), rest)
  | _, ts => .ok (([], [], []), ts)

/-- The words of a loop up to the end of its line. -/
def loopWords : List Token → List Word × List Token
  | .word w :: ts => let (ws, rest) := loopWords ts; (w :: ws, rest)
  | ts => ([], ts)

mutual
/-- Commands one after the other. -/
def list : (fuel : Nat) → List Token → Except SyntaxError (Script × List Token)
  | 0, ts => refuse ts
  | fuel + 1, ts => do
    let ts := skipLines ts
    if isListEnd ts then return (.nothing, ts)
    let (first, ts) ← chain fuel ts
    match afterSeparator? ts with
    | none => return (first, ts)
    | some ts =>
      if isListEnd ts then return (first, ts)
      let (second, ts) ← list fuel ts
      return (.sequence first second, ts)

/-- Pipelines of which one depends on the result of the other. -/
def chain : (fuel : Nat) → List Token → Except SyntaxError (Script × List Token)
  | 0, ts => refuse ts
  | fuel + 1, ts => do
    let (first, ts) ← pipeline fuel ts
    links fuel first ts

/-- What depends on the result of a script. -/
def links : (fuel : Nat) → Script → List Token → Except SyntaxError (Script × List Token)
  | fuel + 1, first, .operator "&&" :: ts => do
    let (second, ts) ← pipeline fuel (skipLines ts)
    links fuel (.both first second) ts
  | fuel + 1, first, .operator "||" :: ts => do
    let (second, ts) ← pipeline fuel (skipLines ts)
    links fuel (.either first second) ts
  | _, first, ts => .ok (first, ts)

/-- Commands that feed one another. -/
def pipeline : (fuel : Nat) → List Token → Except SyntaxError (Script × List Token)
  | 0, ts => refuse ts
  | fuel + 1, ts => do
    match after? "!" ts with
    | some ts =>
      let (body, ts) ← pipeline fuel ts
      return (.opposite body, ts)
    | none =>
      let (first, ts) ← command fuel ts
      match ts with
      | .operator "|" :: ts =>
        let (second, ts) ← pipeline fuel (skipLines ts)
        return (.pipe first second, ts)
      | _ => return (first, ts)

/-- One command: simple, grouped, a choice or a loop. -/
def command : (fuel : Nat) → List Token → Except SyntaxError (Script × List Token)
  | 0, ts => refuse ts
  | fuel + 1, ts => do
    let grouped (alone : Bool) (body : Script) (ts : List Token) :
        Except SyntaxError (Script × List Token) := do
      let (leads, ts) ← redirects (ts.length + 1) ts
      return (.group body alone leads, ts)
    let looped (wanted : Bool) (ts : List Token) : Except SyntaxError (Script × List Token) := do
      let (test, ts) ← list fuel ts
      let (body, ts) ← list fuel (← need "do" ts)
      grouped false (.loop test wanted body) (← need "done" ts)
    match ts, after? "\x7b" ts, after? "if" ts, after? "while" ts, after? "until" ts,
      after? "for" ts with
    | .operator "(" :: ts, _, _, _, _, _ =>
      match ← list fuel ts with
      | (body, .operator ")" :: ts) => grouped true body ts
      | (_, ts) => .error (.unexpected ts.head? (some ")"))
    | _, some ts, _, _, _, _ =>
      let (body, ts) ← list fuel ts
      grouped false body (← need "\x7d" ts)
    | _, _, some ts, _, _, _ =>
      let (body, ts) ← choice fuel ts
      grouped false body ts
    | _, _, _, some ts, _, _ => looped true ts
    | _, _, _, _, some ts, _ => looped false ts
    | _, _, _, _, _, some (.word name :: ts) =>
      let (words, ts) := loopWords (← need "in" ts)
      let (body, ts) ← list fuel (← need "do" ((afterSeparator? ts).getD ts))
      grouped false (.each ((plain? name).getD "") words body) (← need "done" ts)
    | _, _, _, _, _, _ =>
      match ← simple (ts.length + 1) ts with
      | (([], [], []), _) => refuse ts
      | ((sets, words, leads), rest) => return (.simple sets words leads, rest)

/-- A choice behind its first word, up to and with its last. -/
def choice : (fuel : Nat) → List Token → Except SyntaxError (Script × List Token)
  | 0, ts => refuse ts
  | fuel + 1, ts => do
    let (test, ts) ← list fuel ts
    let (body, ts) ← list fuel (← need "then" ts)
    match after? "elif" ts, after? "else" ts with
    | some ts, _ =>
      let (otherwise, ts) ← choice fuel ts
      return (.choice test body otherwise, ts)
    | none, some ts =>
      let (otherwise, ts) ← list fuel ts
      return (.choice test body otherwise, ← need "fi" ts)
    | none, none => return (.choice test body .nothing, ← need "fi" ts)
end

/-- The script of a text. -/
def parse (text : String) : Except SyntaxError Script :=
  match tokens? text.toList with
  | none => .error .openQuote
  | some ts => do
    match ← list (4 * ts.length + 4) ts with
    | (script, []) => return script
    | (_, rest) => refuse rest

end RouterShift.Shell
