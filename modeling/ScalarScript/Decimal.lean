import ScalarScript.Binary64

/-!
# Decimal numbers

A number literal denotes `digits * 10 ^ exponent` exactly. The double it stands for is the nearest
one, found in natural-number arithmetic, so no digit is dropped and nothing is rounded twice.
-/

namespace ScalarScript

/-- The number `digits * 10 ^ exponent`. -/
structure Decimal where
  digits : Nat
  exponent : Int
  deriving DecidableEq, Repr

namespace Decimal

/-- The code of the nearest double. `10 ^ 310` is above every finite double, and a number below
`10 ^ -330` is nearest to zero, so an exponent of any size costs only a comparison. -/
def code (q : Decimal) : Nat :=
  if q.digits = 0 then 0
  else if 310 ≤ q.exponent then Binary64.infinity
  else if q.exponent + q.digits.log2 < -330 then 0
  else Binary64.nearest (q.digits * Nat.pow 10 q.exponent.toNat * Binary64.unitsPerOne)
    (Nat.pow 10 (-q.exponent).toNat)

def toFloat (q : Decimal) : Float := Binary64.ofCode q.code

def isExponentMark (c : Char) : Bool := c = 'e' || c = 'E'

/-- The value of a digit run with an optional sign in front. -/
def signedDigits : List Char → Int
  | '-' :: ds => -(Nat.ofDigitChars 10 ds 0)
  | '+' :: ds => Nat.ofDigitChars 10 ds 0
  | ds => Nat.ofDigitChars 10 ds 0

/-- Reads a number literal: the digits on both sides of the point form one integer, and each
digit after the point lowers the written exponent by one. -/
def ofLiteral (text : List Char) : Decimal :=
  let mantissa := text.takeWhile (!isExponentMark ·)
  let written := (text.dropWhile (!isExponentMark ·)).drop 1
  let whole := mantissa.takeWhile (· != '.')
  let fraction := (mantissa.dropWhile (· != '.')).drop 1
  { digits := Nat.ofDigitChars 10 (whole ++ fraction) 0
    exponent := signedDigits written - fraction.length }

end Decimal
end ScalarScript
