/-! Percent encoding: the bytes of a text, each written as `%` and two digits unless it is a letter,
    a digit or one of `-`, `_`, `.`, `~`. -/

namespace RouterShift.Text

def isUnreserved (b : UInt8) : Bool :=
  let n := b.toNat
  ('0'.toNat ≤ n && n ≤ '9'.toNat) || ('a'.toNat ≤ n && n ≤ 'z'.toNat)
    || ('A'.toNat ≤ n && n ≤ 'Z'.toNat) || n == '-'.toNat || n == '_'.toNat || n == '.'.toNat
    || n == '~'.toNat

def upperHexDigit (n : Nat) : Char :=
  if n < 10 then Char.ofNat ('0'.toNat + n) else Char.ofNat ('A'.toNat + (n - 10))

def percentByte (b : UInt8) : List Char :=
  if isUnreserved b then [Char.ofNat b.toNat]
  else ['%', upperHexDigit (b.toNat / 16), upperHexDigit (b.toNat % 16)]

def percentEncode (s : String) : String := String.ofList (s.toUTF8.toList.flatMap percentByte)

end RouterShift.Text
