import ScalarScript.Decimal.Shortest

/-!
# Written doubles

A number has two written forms, made from the same digits. In an answer it is `plain`: all places
are spelled out and a whole number has no point. In a message about a literal, and in the events
of a run, it is `marked`: a whole number keeps `.0`, and very large and very small numbers have an
exponent.
-/

namespace ScalarScript

/-- The decisions that fix how a double is written. -/
structure NumberStyle where
  /-- The exponents of the leading digit that are spelled out in places. -/
  positional : Int → Bool
  /-- What follows the digits of a whole number. -/
  wholeEnding : String
  infinity : String
  notANumber : String

namespace NumberStyle

/-- Always in places, as in `0.0000001` and `1000000000000000000000`. -/
def plain : NumberStyle where
  positional _ := true
  wholeEnding := ""
  infinity := "Infinity"
  notANumber := "NaN"

/-- In places from `0.0001` to below `10 ^ 16`, as in `2.0`, `1e-5` and `1.5e17`. -/
def marked : NumberStyle where
  positional e := -4 ≤ e && e < 16
  wholeEnding := ".0"
  infinity := "inf"
  notANumber := "NaN"

end NumberStyle

namespace Decimal

def digitChars (q : Decimal) : List Char := Nat.toDigits 10 q.digits

/-- The exponent of ten that belongs to the first digit. -/
def leadingExponent (q : Decimal) : Int := q.exponent + q.digitChars.length - 1

/-- All places spelled out; `ending` follows a whole number. -/
def inPlaces (q : Decimal) (ending : List Char) : List Char :=
  let ds := q.digitChars
  if 0 ≤ q.exponent then ds ++ List.replicate q.exponent.toNat '0' ++ ending
  else
    let places := (-q.exponent).toNat
    if places < ds.length then ds.take (ds.length - places) ++ '.' :: ds.drop (ds.length - places)
    else '0' :: '.' :: (List.replicate (places - ds.length) '0' ++ ds)

/-- One digit before the point, and the exponent behind an `e`. -/
def withExponent (q : Decimal) : List Char :=
  let ds := q.digitChars
  let point := if ds.length = 1 then [] else ['.']
  ds.take 1 ++ point ++ ds.drop 1 ++ 'e' :: (toString q.leadingExponent).toList

def write (style : NumberStyle) (q : Decimal) : List Char :=
  if style.positional q.leadingExponent then q.inPlaces style.wholeEnding.toList
  else q.withExponent

example : write .plain ⟨15, 16⟩ = "150000000000000000".toList := by decide

example : write .marked ⟨15, 16⟩ = "1.5e17".toList := by decide

example : write .plain ⟨25, -1⟩ = "2.5".toList := by decide

example : write .marked ⟨2, 0⟩ = "2.0".toList := by decide

example : write .marked ⟨5, -4⟩ = "0.0005".toList := by decide

example : write .marked ⟨5, -5⟩ = "5e-5".toList := by decide

end Decimal

namespace NumberStyle

/-- The text of a magnitude that is a number. -/
def writeCode (style : NumberStyle) (code : Nat) : List Char :=
  if code = Binary64.infinity then style.infinity.toList
  else (Decimal.shortest code).write style

def write (style : NumberStyle) (x : Float) : String :=
  if x.isNaN then style.notANumber
  else
    let sign := if Binary64.isNegative x then ['-'] else []
    String.ofList (sign ++ style.writeCode (Binary64.code x))

example : plain.write 0.1 = "0.1" := by decide +kernel

example : plain.write (-0.0) = "-0" := by decide +kernel

example : marked.write (Binary64.ofCode 1) = "5e-324" := by decide +kernel

end NumberStyle
end ScalarScript
