import RouterShift.Decimal.Shortest
import RouterShift.Text.Number

/-! Numbers of JSON. An integer that fits 64 bits, signed or unsigned, stays an integer; every other
    number is a double. A double is made from at most twenty significant digits, scaled by one
    power of ten, and is written with the fewest digits that read back. -/

namespace RouterShift.Json

open Decimal (Double Digits)

inductive Number
  | integer (n : Int)
  | real (x : Double)
  deriving Repr, DecidableEq

namespace Number

/-! ### From digits -/

/-- Digits taken into a significand as long as it fits 64 bits: the significand, and how many
    digits were taken. -/
def absorb (significand : Nat) : List Char → Nat × Nat
  | [] => (significand, 0)
  | c :: cs =>
    let next := 10 * significand + Text.digitValue c
    if next < Text.wordLimit then
      let (s, taken) := absorb next cs
      (s, taken + 1)
    else (significand, 0)

/-- Exponents beyond this one are not looked at. -/
def exponentLimit : Nat := Nat.pow 2 31

/-- The largest power of ten that is applied at once. -/
def powerLimit : Nat := 308

/-- A magnitude divided by the largest power of ten `n` times, or until nothing is left. -/
def shrink? : (n : Nat) → Double → Option Double
  | 0, x => some x
  | n + 1, x =>
    if x.isZero then some x
    else ((Double.tenTo? powerLimit).bind x.div?).bind (shrink? n)

/-- A magnitude times a power of ten; none when the result is too large. -/
def scaled? (x : Double) (exponent : Int) : Option Double :=
  if 0 ≤ exponent then
    if exponent ≤ powerLimit then (Double.tenTo? exponent.toNat).bind x.mul?
    else if x.isZero then some x else none
  else
    let power := (-exponent).toNat
    let steps := (power - 1) / powerLimit
    (shrink? steps x).bind fun y => (Double.tenTo? (power - powerLimit * steps)).bind y.div?

/-- The double with a significand and an exponent of ten. -/
def ofParts? (negative : Bool) (significand : Nat) (exponent : Int) : Option Number := do
  let x ← Double.ofRatio? significand 1
  let y ← scaled? x exponent
  return .real (if negative then y.neg else y)

/-- An integer without fraction and exponent. The negative of zero is a double, since no integer
    is written like that. -/
def ofInteger? (negative : Bool) (significand : Nat) : Option Number :=
  if !negative then some (.integer significand)
  else if 0 < significand && significand ≤ Nat.pow 2 63 then some (.integer (-(significand : Int)))
  else ofParts? true significand 0

/-- The number of an integer part, the digits behind a point and an exponent with its sign; none
    when it is too large for a double. -/
def ofDigits? (negative : Bool) (whole : List Char) (fraction : Option (List Char))
    (exponent : Option (Bool × List Char)) : Option Number :=
  let (significand, taken) := absorb 0 whole
  let dropped : Int := (whole.length - taken : Nat)
  let (significand, shift) :=
    match fraction with
    | none => (significand, dropped)
    | some digits =>
      let (s, taken) := absorb significand digits
      (s, dropped - taken)
  match exponent with
  | none =>
    if fraction.isNone && dropped = 0 then ofInteger? negative significand
    else ofParts? negative significand shift
  | some (minus, digits) =>
    let e := Text.valueOf digits
    if e < exponentLimit then
      ofParts? negative significand (if minus then shift - e else shift + e)
    else if significand ≠ 0 && !minus then none
    else some (.real { Double.zero with negative := negative })

/-! ### To text -/

def digitsOf (n : Nat) : List Char := (toString n).toList

/-- Decimal digits laid out: with a point for exponents of the leading digit from -5 to 15, and
    with at least one digit behind it; otherwise one digit before the point and a signed exponent. -/
def layout (d : Digits) : List Char :=
  let digits := (digitsOf d.digits).reverse.dropWhile (· == '0') |>.reverse
  let top : Int := d.exponent + (digitsOf d.digits).length - 1
  if -5 ≤ top ∧ top ≤ 15 then
    if top < 0 then ['0', '.'] ++ List.replicate (-top - 1).toNat '0' ++ digits
    else
      let places := top.toNat + 1
      let whole := digits.take places ++ List.replicate (places - digits.length) '0'
      let fraction := digits.drop places
      whole ++ ['.'] ++ (if fraction.isEmpty then ['0'] else fraction)
  else
    let mantissa := digits.take 1 ++ (if digits.length > 1 then '.' :: digits.drop 1 else [])
    let sign := if top < 0 then '-' else '+'
    mantissa ++ ['e', sign] ++ digitsOf top.natAbs

def renderReal (x : Double) : List Char :=
  let size := if x.isZero then ['0', '.', '0'] else layout x.shortest
  if x.negative then '-' :: size else size

def render : Number → List Char
  | .integer n => (toString n).toList
  | .real x => renderReal x

end Number
end RouterShift.Json
