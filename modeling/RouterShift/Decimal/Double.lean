/-! Binary floating-point numbers of 64 bits, as exact values: a mantissa of at most 53 bits and a
    power of two. Rounding a ratio to the nearest of them, a half to the even one, is the one
    operation; products and quotients are exact ratios that are rounded once. -/

namespace RouterShift.Decimal

/-- The number `mantissa * 2 ^ exponent` with a sign; infinities are not among them. -/
structure Double where
  negative : Bool
  mantissa : Nat
  exponent : Int
  deriving Repr, DecidableEq

/-- `base ^ e`, and one for a negative exponent. -/
def factor (base : Nat) (e : Int) : Nat := Nat.pow base e.toNat

namespace Double

/-- The least exponent; numbers that need a smaller one have fewer bits. -/
def minExponent : Int := -1074

/-- The greatest exponent of a full mantissa. -/
def maxExponent : Int := 971

def zero : Double := ⟨false, 0, minExponent⟩

def isZero (x : Double) : Bool := x.mantissa == 0

/-- `num / den` as a ratio after division by `2 ^ e`. -/
def scale (num den : Nat) (e : Int) : Nat × Nat := (num * factor 2 (-e), den * factor 2 e)

/-- A ratio rounded to the nearest natural number, a half to the even one. -/
def roundRatio (num den : Nat) : Nat :=
  let q := num / den
  let r := num % den
  if 2 * r < den then q
  else if 2 * r > den then q + 1
  else if q % 2 = 0 then q else q + 1

/-- The exponent at which a ratio has a mantissa of 53 bits, or the least one. -/
def exponentOf (num den : Nat) : Int :=
  let guess : Int := (num.log2 : Int) - (den.log2 : Int) - 53
  let (n, d) := scale num den guess
  let e := if n / d < Nat.pow 2 53 then guess else guess + 1
  max e minExponent

/-- The number nearest to a ratio, a half to the even mantissa; none beyond the greatest. -/
def ofRatio? (num den : Nat) : Option Double :=
  if num = 0 then some zero
  else
    let e := exponentOf num den
    let (n, d) := scale num den e
    let m := roundRatio n d
    let (m, e) := if m = Nat.pow 2 53 then (Nat.pow 2 52, e + 1) else (m, e)
    if e > maxExponent then none else some ⟨false, m, e⟩

def neg (x : Double) : Double := { x with negative := !x.negative }

/-- The product of two magnitudes. -/
def mul? (x y : Double) : Option Double :=
  let (n, d) := scale (x.mantissa * y.mantissa) 1 (-(x.exponent + y.exponent))
  ofRatio? n d

/-- The quotient of two magnitudes, the second not zero. -/
def div? (x y : Double) : Option Double :=
  let (n, d) := scale x.mantissa y.mantissa (y.exponent - x.exponent)
  ofRatio? n d

/-- The number nearest to a power of ten. -/
def tenTo? (k : Nat) : Option Double := ofRatio? (Nat.pow 10 k) 1

end Double
end RouterShift.Decimal
