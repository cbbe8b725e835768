import RouterShift.Decimal.Double

/-! The shortest decimal that reads back as a given number: of all decimals inside the interval of
    reals that round to the number, one with the fewest digits, of those the nearest, and of two
    equally near the one whose last digit is even. -/

namespace RouterShift.Decimal

/-- The decimal `digits * 10 ^ exponent`. -/
structure Digits where
  digits : Nat
  exponent : Int
  deriving Repr, DecidableEq

/-- Compares `a * 10 ^ i` with `n * 2 ^ j`. -/
def compareScaled (a : Nat) (i : Int) (n : Nat) (j : Int) : Ordering :=
  compare (a * factor 10 i * factor 2 (-j)) (n * factor 2 j * factor 10 (-i))

namespace Double

/-- Below a power of two the next number is only half as far away as above it. -/
def isNarrowBelow (x : Double) : Bool := x.mantissa == Nat.pow 2 52 && x.exponent > minExponent

/-- The decimal lies among the reals that round to the magnitude; the ends of that interval belong
    to it when the mantissa is even. -/
def readsBack (x : Double) (d : Digits) : Bool :=
  let low := if x.isNarrowBelow then 4 * x.mantissa - 1 else 4 * x.mantissa - 2
  let high := 4 * x.mantissa + 2
  let inclusive := x.mantissa % 2 == 0
  let atLow := compareScaled d.digits d.exponent low (x.exponent - 2)
  let atHigh := compareScaled d.digits d.exponent high (x.exponent - 2)
  (atLow == .gt || (inclusive && atLow == .eq)) && (atHigh == .lt || (inclusive && atHigh == .eq))

/-- The magnitude divided by `10 ^ k`, as a ratio. -/
def overTen (x : Double) (k : Int) : Nat × Nat :=
  (x.mantissa * factor 2 x.exponent * factor 10 (-k), factor 2 (-x.exponent) * factor 10 k)

/-- The exponent of the leading digit, found from an estimate by at most a few steps up or down. -/
def leadingExponent (x : Double) : Int :=
  let bits : Int := (x.mantissa.log2 : Int) + x.exponent
  let guess : Int := bits * 30103 / 100000 - 1
  let fits (k : Int) : Bool := let (n, d) := x.overTen k; d ≤ n
  if fits (guess + 2) then guess + 2 else if fits (guess + 1) then guess + 1 else guess

/-- The decimal on the grid `10 ^ k` that reads back and is nearest, if one of the two around the
    magnitude does. -/
def onGrid? (x : Double) (k : Int) : Option Digits :=
  let (n, d) := x.overTen k
  let below : Digits := ⟨n / d, k⟩
  let above : Digits := ⟨n / d + 1, k⟩
  match x.readsBack below, x.readsBack above with
  | true, true =>
    let twice := 2 * (n % d)
    if twice < d || (twice == d && below.digits % 2 == 0) then some below else some above
  | true, false => some below
  | false, true => some above
  | false, false => none

/-- The first hit on the grids with one to seventeen digits; past them the exact value. -/
def shortest (x : Double) : Digits :=
  let top := x.leadingExponent
  match (List.range 17).findSome? fun (n : Nat) => x.onGrid? (top - (n : Int)) with
  | some d => d
  | none => ⟨x.mantissa * factor 2 x.exponent * factor 5 (-x.exponent), min x.exponent 0⟩

end Double
end RouterShift.Decimal
