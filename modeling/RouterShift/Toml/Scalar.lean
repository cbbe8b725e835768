import RouterShift.Decimal.Double
import RouterShift.Json.Reader
import RouterShift.Text.Cut
import RouterShift.Text.Number

/-! Values of TOML that are written without quotes: truth values, integers in four bases, floating
    point numbers, and dates and times. -/

namespace RouterShift.Toml

/-- A value written without quotes. What a number with a point or a date comes to is not looked at,
    so they are kept as they were written. -/
inductive Scalar
  | boolean (b : Bool)
  | integer (n : Int)
  | float (text : String)
  | moment (text : String)
  deriving Repr, DecidableEq

/-! ### Numbers -/

/-- Digits of a base, with single underscores only between two of them. -/
def digits? (isDigit : Char → Bool) (cs : List Char) : Option (List Char) :=
  let groups := Text.splitAt (· == '_') cs
  if groups.all fun g => !g.isEmpty && g.all isDigit then some groups.flatten else none

/-- Digits of a decimal number without a needless zero in front. -/
def decimal? (cs : List Char) : Option (List Char) :=
  (digits? Text.isDigit cs).filter fun ds => ds.length = 1 || ds.head? != some '0'

def valueIn (base : Nat) (digits : List Char) : Nat :=
  digits.foldl (fun n c => n * base + (Json.hexValue? c).getD 0) 0

/-- The digits of a base. -/
def isDigitOf (base : Nat) (c : Char) : Bool := (Json.hexValue? c).any (· < base)

/-- A sign and what follows it. -/
def sign : List Char → Bool × List Char
  | '-' :: cs => (true, cs)
  | '+' :: cs => (false, cs)
  | cs => (false, cs)

/-- The integers that can be held at all. -/
def isHeld (n : Int) : Bool := -(Nat.pow 2 127 : Nat) ≤ n && n < (Nat.pow 2 128 : Nat)

def integer? (cs : List Char) : Option Int :=
  let based (base : Nat) (ds : List Char) : Option Int :=
    (digits? (isDigitOf base) ds).map fun ds => (valueIn base ds : Int)
  let n := match cs with
    | '0' :: 'x' :: ds => based 16 ds
    | '0' :: 'o' :: ds => based 8 ds
    | '0' :: 'b' :: ds => based 2 ds
    | _ =>
      let (isNegative, ds) := sign cs
      (decimal? ds).map fun ds =>
        if isNegative then -(Text.valueOf ds : Int) else (Text.valueOf ds : Int)
  n.filter isHeld

/-- The number of `digits * 10 ^ exponent` is not too large for a double. -/
def isFinite (digits : List Char) (exponent : Int) : Bool :=
  let digits := digits.dropWhile (· == '0')
  let magnitude := digits.length + exponent
  if digits.isEmpty || magnitude ≤ 308 then true
  else if 309 < magnitude then false
  else
    let n := Text.valueOf digits
    let num := n * Decimal.factor 10 exponent
    (Decimal.Double.ofRatio? num (Decimal.factor 10 (-exponent))).isSome

/-- The exponent behind its letter. -/
def exponent? (cs : List Char) : Option Int :=
  let (isNegative, ds) := sign cs
  (digits? Text.isDigit ds).map fun ds =>
    if isNegative then -(Text.valueOf ds : Int) else (Text.valueOf ds : Int)

/-- The text is a floating point number that a double can hold. -/
def isFloat (cs : List Char) : Bool :=
  let (_, body) := sign cs
  if body = "inf".toList || body = "nan".toList then true
  else
    let isExponentMark (c : Char) : Bool := c == 'e' || c == 'E'
    let front := body.takeWhile (!isExponentMark ·)
    let behind := body.dropWhile (!isExponentMark ·)
    let whole := decimal? (front.takeWhile (· != '.'))
    let fraction := match front.dropWhile (· != '.') with
      | [] => some []
      | _ :: ds => digits? Text.isDigit ds
    let exponent := match behind with
      | [] => some 0
      | _ :: cs => exponent? cs
    match whole, fraction, exponent with
    | some whole, some fraction, some exponent =>
      (front.contains '.' || !behind.isEmpty)
        && isFinite (whole ++ fraction) (exponent - fraction.length)
    | _, _, _ => false

/-! ### Dates and times -/

/-- Exactly `n` digits at the start, as a number, and what follows. -/
def fixed? (n : Nat) (cs : List Char) : Option (Nat × List Char) :=
  let ds := cs.take n
  if ds.length = n && ds.all Text.isDigit then some (Text.valueOf ds, cs.drop n) else none

def after? (c : Char) (cs : List Char) : Option (List Char) := Text.afterStart? [c] cs

def daysIn (year month : Nat) : Nat :=
  if month = 2 then
    if (year % 4 = 0 && year % 100 ≠ 0) || year % 400 = 0 then 29 else 28
  else if [4, 6, 9, 11].contains month then 30
  else 31

/-- What follows a date. -/
def afterDate? (cs : List Char) : Option (List Char) := do
  let (year, cs) ← fixed? 4 cs
  let (month, cs) ← fixed? 2 (← after? '-' cs)
  let (day, cs) ← fixed? 2 (← after? '-' cs)
  if 1 ≤ month && month ≤ 12 && 1 ≤ day && day ≤ daysIn year month then some cs else none

/-- What follows a fraction of a second, if one comes here. -/
def afterFraction? : List Char → Option (List Char)
  | '.' :: cs =>
    if (cs.takeWhile Text.isDigit).isEmpty then none else some (cs.dropWhile Text.isDigit)
  | cs => some cs

/-- What follows a time of day. -/
def afterTime? (cs : List Char) : Option (List Char) := do
  let (hour, cs) ← fixed? 2 cs
  let (minute, cs) ← fixed? 2 (← after? ':' cs)
  let (second, cs) ← fixed? 2 (← after? ':' cs)
  if hour < 24 && minute < 60 && second ≤ 60 then afterFraction? cs else none

/-- The text is a difference to universal time, or empty. -/
def isOffset : List Char → Bool
  | [] | ['Z'] | ['z'] => true
  | c :: cs =>
    (c == '+' || c == '-') &&
      match fixed? 2 cs with
      | some (hour, ':' :: rest) =>
        match fixed? 2 rest with
        | some (minute, []) => hour < 24 && minute < 60
        | _ => false
      | _ => false

/-- The text is a date, a time, or both with a separator between them. -/
def isMoment (cs : List Char) : Bool :=
  match afterDate? cs with
  | none => afterTime? cs = some []
  | some [] => true
  | some (c :: cs) =>
    (c == 'T' || c == 't' || c == ' ') && (afterTime? cs).any isOffset

/-! ### Scalars -/

/-- The value of a text without quotes. -/
def Scalar.ofText? (text : String) : Option Scalar :=
  if text = "true" then some (.boolean true)
  else if text = "false" then some (.boolean false)
  else
    let cs := text.toList
    match integer? cs with
    | some n => some (.integer n)
    | none =>
      if isFloat cs then some (.float text)
      else if isMoment cs then some (.moment text)
      else none

end RouterShift.Toml
