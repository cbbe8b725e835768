import RouterShift.Shell.Process
import RouterShift.Text.Cut

/-! What `echo` and `printf` write. Escapes behind a backslash stand for single bytes; `printf` goes
    through its format again as long as there are arguments left. -/

namespace RouterShift.Shell

def octalValue? (c : Char) : Option Nat :=
  if '0' ≤ c && c ≤ '7' then some (c.toNat - '0'.toNat) else none

/-- Up to `n` octal digits as a byte, and what follows. -/
def octal : (n : Nat) → (value : Nat) → List Char → UInt8 × List Char
  | n + 1, value, c :: cs =>
    match octalValue? c with
    | some d => octal n (value * 8 + d) cs
    | none => (value.toUInt8, c :: cs)
  | _, value, cs => (value.toUInt8, cs)

/-- The byte of an escape of one letter. -/
def escapeByte? : Char → Option UInt8
  | 'a' => some 7
  | 'b' => some 8
  | 't' => some 9
  | 'n' => some 10
  | 'v' => some 11
  | 'f' => some 12
  | 'r' => some 13
  | '\\' => some 92
  | _ => none

/-- The bytes of an escape behind its backslash, and what follows. With `extra`, a zero may stand
    before three more octal digits. -/
def escaped (extra : Bool) : List Char → List UInt8 × List Char
  | [] => ([92], [])
  | c :: cs =>
    match octalValue? c, escapeByte? c with
    | some _, _ =>
      let (b, rest) := if extra && c = '0' then octal 3 0 cs else octal 3 0 (c :: cs)
      ([b], rest)
    | none, some b => ([b], cs)
    | none, none => ([92], c :: cs)

def bytesOfChars (cs : List Char) : List UInt8 := (String.ofList cs).toUTF8.toList

/-- A text with its escapes resolved, and whether it may go on after it. `fuel` is more than the
    number of characters. -/
def unescape : (fuel : Nat) → List Char → List UInt8 × Bool
  | 0, _ => ([], true)
  | _, [] => ([], true)
  | _, '\\' :: 'c' :: _ => ([], false)
  | fuel + 1, '\\' :: cs =>
    let (bytes, rest) := escaped true cs
    let (more, goesOn) := unescape fuel rest
    (bytes ++ more, goesOn)
  | fuel + 1, c :: cs =>
    let (more, goesOn) := unescape fuel cs
    (bytesOfChars [c] ++ more, goesOn)

/-- What `echo` writes. -/
def echoed (arguments : List String) : List UInt8 :=
  let (isQuiet, words) := match arguments with
    | "-n" :: rest => (true, rest)
    | _ => (false, arguments)
  let line := " ".intercalate words
  let (bytes, goesOn) := unescape (line.length + 1) line.toList
  if isQuiet || !goesOn then bytes else bytes ++ [10]

/-- How a value is set into its place. -/
structure Layout where
  left : Bool := false
  zeros : Bool := false
  width : Nat := 0
  precision : Option Nat := none

/-- The digits at the start as a number, and what follows. -/
def number (cs : List Char) : Nat × List Char :=
  let isDigit (c : Char) : Bool := '0' ≤ c && c ≤ '9'
  ((cs.takeWhile isDigit).foldl (fun n c => 10 * n + (c.toNat - '0'.toNat)) 0, cs.dropWhile isDigit)

/-- The layout at the start of a directive, and what follows it. -/
def layout (cs : List Char) : Layout × List Char :=
  let isFlag (c : Char) : Bool := ['-', '0', '+', ' ', '#'].contains c
  let flags := cs.takeWhile isFlag
  let (width, rest) := number (cs.dropWhile isFlag)
  let (precision, rest) := match rest with
    | '.' :: more => let (n, more) := number more; (some n, more)
    | _ => (none, rest)
  (⟨flags.contains '-', flags.contains '0', width, precision⟩, rest)

def Layout.place (l : Layout) (bytes : List UInt8) : List UInt8 :=
  let fill := List.replicate (l.width - bytes.length) (32 : UInt8)
  if l.left then bytes ++ fill else fill ++ bytes

/-- An integer as it is set: its sign, then digits, zeros in front where they are asked for. -/
def Layout.placeNumber (l : Layout) (isNegative : Bool) (digits : List Char) : List UInt8 :=
  let sign := if isNegative then ['-'] else []
  let least := match l.precision with
    | some n => n
    | none => if l.zeros && !l.left then l.width - sign.length else 1
  let digits := List.replicate (least - digits.length) '0' ++ digits
  l.place (bytesOfChars (sign ++ digits))

/-- The value of an argument that is to be an integer. -/
def integerOf (argument : String) : Int :=
  match argument.toList with
  | '-' :: cs => -((number cs).1 : Int)
  | '+' :: cs => (number cs).1
  | cs => (number cs).1

/-- What a directive writes for an argument; none when there is no such directive. -/
def directive? (l : Layout) (letter : Char) (argument : String) : Option (List UInt8 × Bool) :=
  let cut (bytes : List UInt8) : List UInt8 := match l.precision with
    | some n => bytes.take n
    | none => bytes
  let n := integerOf argument
  let based (base : Nat) : Option (List UInt8 × Bool) :=
    some (l.placeNumber false (Nat.toDigits base n.natAbs), true)
  match letter with
  | 's' => some (l.place (cut argument.toUTF8.toList), true)
  | 'b' =>
    let (bytes, goesOn) := unescape (argument.length + 1) argument.toList
    some (l.place (cut bytes), goesOn)
  | 'c' => some (l.place (argument.toUTF8.toList.take 1), true)
  | 'd' | 'i' => some (l.placeNumber (n < 0) (Nat.toDigits 10 n.natAbs), true)
  | 'u' => based 10
  | 'o' => based 8
  | 'x' => based 16
  | 'X' =>
    some (l.placeNumber false ((Nat.toDigits 16 n.natAbs).map Char.toUpper), true)
  | _ => none

/-- One pass through a format: what it writes, the arguments left, whether it used any, and whether
    more may follow. `fuel` is more than the number of characters. -/
def formatOnce : (fuel : Nat) → List Char → List String → List UInt8 × List String × Bool × Bool
  | 0, _, args => ([], args, false, true)
  | _, [], args => ([], args, false, true)
  | fuel + 1, '%' :: '%' :: cs, args =>
    let (bytes, rest) := formatOnce fuel cs args
    (37 :: bytes, rest)
  | fuel + 1, '%' :: cs, args =>
    match layout cs with
    | (l, letter :: rest) =>
      match directive? l letter (args.headD "") with
      | some (bytes, true) =>
        let (more, left, _, goesOn) := formatOnce fuel rest (args.drop 1)
        (bytes ++ more, left, true, goesOn)
      | some (bytes, false) => (bytes, [], true, false)
      | none => ([], [], false, false)
    | (_, []) => ([], [], false, false)
  | _, '\\' :: 'c' :: _, _ => ([], [], false, false)
  | fuel + 1, '\\' :: cs, args =>
    let (bytes, rest) := escaped false cs
    let (more, tail) := formatOnce fuel rest args
    (bytes ++ more, tail)
  | fuel + 1, c :: cs, args =>
    let (more, tail) := formatOnce fuel cs args
    (bytesOfChars [c] ++ more, tail)

/-- What a format writes for all of its arguments. -/
def formatted (format : List Char) (args : List String) : List UInt8 :=
  match formatOnce (format.length + 1) format args with
  | (bytes, left, isUsed, goesOn) =>
    if isUsed && goesOn && !left.isEmpty && left.length < args.length then
      bytes ++ formatted format left
    else bytes
termination_by args.length
decreasing_by rename_i h; simp_all

end RouterShift.Shell
