import RouterShift.Toml.Document
import RouterShift.Toml.Token

/-! Reading TOML 1.0. Tokens are read into statements, one a line, and the statements are added to a
    document one after the other. -/

namespace RouterShift.Toml

/-- How deep arrays and tables may be nested in a value. -/
def nestingLimit : Nat := 80

def isKeyChar (c : Char) : Bool :=
  Text.isDigit c || ('a' ≤ c && c ≤ 'z') || ('A' ≤ c && c ≤ 'Z') || c == '_' || c == '-'

/-- A key that is not dotted. -/
def simpleKey? : Symbol → Option String
  | .run text => if text.toList.all isKeyChar then some text else none
  | .quoted text false => some text
  | _ => none

/-- A key with all of its parts, and what follows it. -/
def key? : List Token → Option (List String × List Token)
  | [] => none
  | first :: rest => do
    let key ← simpleKey? first.symbol
    match rest with
    | dot :: more =>
      if dot.symbol = .mark '.' then
        let (path, after) ← key? more
        return (key :: path, after)
      else return ([key], rest)
    | [] => return ([key], [])

/-- The text of a value without quotes, and what follows it: runs joined by points, and a date and
    a time with one space between them. -/
def scalarText (text : String) : List Token → String × List Token
  | point :: next :: rest =>
    match point.symbol, next.symbol, point.gap, next.gap with
    | .mark '.', .run more, [], [] => scalarText (text ++ "." ++ more) rest
    | .run time, _, [' '], _ =>
      if (afterDate? text.toList) = some [] && time.toList.head?.any Text.isDigit then
        scalarText (text ++ " " ++ time) (next :: rest)
      else (text, point :: next :: rest)
    | _, _, _, _ => (text, point :: next :: rest)
  | [time] =>
    match time.symbol, time.gap with
    | .run t, [' '] =>
      if (afterDate? text.toList) = some [] && t.toList.head?.any Text.isDigit then
        (text ++ " " ++ t, [])
      else (text, [time])
    | _, _ => (text, [time])
  | [] => (text, [])
termination_by ts => ts.length

def skipLines (ts : List Token) : List Token := ts.dropWhile (·.symbol == .lineEnd)

mutual
/-- The value at the start, nested at most `depth` deep, and what follows it. -/
def value? (depth : Nat) (ts : List Token) : Option (Value × List Token) :=
  match ts with
  | [] => none
  | t :: rest =>
    match t.symbol, depth with
    | .quoted text _, _ => some (.text text, rest)
    | .run text, _ =>
      let (text, after) := scalarText text rest
      (Scalar.ofText? text).map fun s => (.scalar s, after)
    | .mark '[', depth + 1 =>
      (items? depth (skipLines rest)).map fun (items, after) => (.array items, after)
    | .mark '\x7b', depth + 1 =>
      match rest with
      | close :: after =>
        if close.symbol = .mark '\x7d' then some (.table [], after)
        else
          (fields? depth rest []).map fun (entries, after) =>
            (.table (settleEntries entries), after)
      | [] => none
    | _, _ => none
termination_by (depth, ts.length, 0)
decreasing_by all_goals exact Prod.Lex.left _ _ (Nat.lt_succ_self _)

/-- The items of an array, on one line or many, up to and with its bracket. -/
def items? (depth : Nat) (ts : List Token) : Option (List Value × List Token) :=
  match ts with
  | [] => none
  | t :: rest =>
    if t.symbol = .mark ']' then some ([], rest)
    else
      match value? depth (t :: rest) with
      | none => none
      | some (v, after) =>
        match skipLines after with
        | [] => none
        | stop :: more =>
          if stop.symbol = .mark ']' then some ([v], more)
          else if stop.symbol = .mark ',' ∧ (skipLines more).length < (t :: rest).length then
            (items? depth (skipLines more)).map fun (items, after) => (v :: items, after)
          else none
termination_by (depth, ts.length, 1)
decreasing_by
  · exact Prod.Lex.right _ (Prod.Lex.right _ Nat.zero_lt_one)
  · rename_i h
    exact Prod.Lex.right _ (Prod.Lex.left _ _ h.2)

/-- The fields of a table on one line, up to and with its brace. -/
def fields? (depth : Nat) (ts : List Token) (entries : Entries) :
    Option (Entries × List Token) := do
  let (path, afterKey) ← key? ts
  match afterKey with
  | [] => none
  | equals :: afterEquals =>
    if equals.symbol = .mark '=' ∧ afterEquals.length < ts.length then
      let (v, afterValue) ← value? depth afterEquals
      let entries ← entries.assign? v path
      match afterValue with
      | [] => none
      | stop :: more =>
        if stop.symbol = .mark '\x7d' then return (entries, more)
        else if stop.symbol = .mark ',' ∧ more.length < ts.length then fields? depth more entries
        else none
    else none
termination_by (depth, ts.length, 1)
decreasing_by
  all_goals
    apply Prod.Lex.right
    apply Prod.Lex.left
    simp_all
end

/-- The header at the start, behind its first bracket, and what follows it. The brackets of an array
    of tables stand side by side. -/
def header? (ts : List Token) : Option (Statement × List Token) := do
  let close (t : Token) : Bool := t.symbol == .mark ']'
  match ts with
  | [] => none
  | t :: rest =>
    if t.symbol = .mark '[' && t.gap.isEmpty then
      match ← key? rest with
      | (path, a :: b :: after) =>
        if close a && close b && b.gap.isEmpty then return (.header path true, after) else none
      | _ => none
    else
      match ← key? ts with
      | (path, a :: after) => if close a then return (.header path false, after) else none
      | _ => none

/-- The statement at the start, and what follows it. -/
def statement? (ts : List Token) : Option (Statement × List Token) := do
  match ts with
  | [] => none
  | t :: rest =>
    if t.symbol = .mark '[' then header? rest
    else
      match ← key? ts with
      | (path, equals :: after) =>
        if equals.symbol = .mark '=' then
          let (v, after) ← value? nestingLimit after
          return (.assignment path v, after)
        else none
      | _ => none

/-- The statements of a document; after each of them its line ends. -/
def statements? (ts : List Token) : Option (List Statement) :=
  match skipLines ts with
  | [] => some []
  | t :: rest =>
    match statement? (t :: rest) with
    | none => none
    | some (s, []) => some [s]
    | some (s, stop :: after) =>
      if stop.symbol = .lineEnd ∧ after.length < ts.length then
        (statements? after).map (s :: ·)
      else none
termination_by ts.length
decreasing_by rename_i h; exact h.2

/-- The entries of a document. A byte order mark in front of it does not count. -/
def parse? (text : String) : Option (List (String × Value)) := do
  let cs := text.toList
  let tokens ← tokens? ((Text.afterStart? ['\ufeff'] cs).getD cs)
  let document ← (← statements? tokens).foldlM Document.add? {}
  return settleEntries document.entries

end RouterShift.Toml
