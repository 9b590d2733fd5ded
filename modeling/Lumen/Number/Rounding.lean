/-!
# Doubles and decimals

A finite double of sign zero is a whole number of units, the unit being the
least positive double `2 ^ -1074`.  The word that stores it, read as a number,
grows with the value: the words below `2 ^ 53` are the counts themselves, and
from there on every further `2 ^ 52` words double the step.  A decimal is
rounded to the nearest word by one exact division, halves going to the even
word; a mantissa that rounds up to the next power of two carries into the
exponent by plain addition.
-/

namespace Lumen.Number

/-- The decimal `digits * 10 ^ exponent`. -/
structure Decimal where
  digits : Nat
  exponent : Int
  deriving DecidableEq, Repr

def Decimal.numerator (decimal : Decimal) : Nat :=
  decimal.digits * Nat.pow 10 decimal.exponent.toNat

/-- Denominator of a decimal as a fraction; it is a power of ten. -/
def Decimal.denominator (decimal : Decimal) : Nat :=
  Nat.pow 10 (-decimal.exponent).toNat

/-- The whole number nearest to a fraction, a half going to the even one. -/
def roundHalfEven (numerator denominator : Nat) : Nat :=
  let quotient := numerator / denominator
  let twice := 2 * (numerator % denominator)
  if twice < denominator then quotient
  else if twice = denominator ∧ quotient % 2 = 0 then quotient
  else quotient + 1

/-- How many units make one. -/
def unitsPerOne : Nat := Nat.pow 2 1074

/-- The word of positive infinity; every finite word is below it. -/
def infinityWord : Nat := 2047 * Nat.pow 2 52

def signWord : Nat := Nat.pow 2 63

/-- The word nearest to a fraction, halves going to the even word. -/
def nearestWord (numerator denominator : Nat) : Nat :=
  let scaled := numerator * unitsPerOne
  let shift := (scaled / denominator).log2 - 52
  min (shift * Nat.pow 2 52 + roundHalfEven scaled (denominator * Nat.pow 2 shift)) infinityWord

/-- The units that a finite word counts. -/
def wordUnits (word : Nat) : Nat :=
  if word < Nat.pow 2 52 then word
  else (Nat.pow 2 52 + word % Nat.pow 2 52) * Nat.pow 2 (word / Nat.pow 2 52 - 1)

def Decimal.word (decimal : Decimal) : Nat :=
  nearestWord decimal.numerator decimal.denominator

/-- The double nearest to a decimal, and infinity beyond the greatest. -/
def Decimal.toFloat (decimal : Decimal) : Float :=
  Float.ofBits decimal.word.toUInt64

/-- A double's word without its sign bit. -/
def magnitudeWord (value : Float) : Nat :=
  value.toBits.toNat % signWord

def isNegative (value : Float) : Bool :=
  signWord ≤ value.toBits.toNat

end Lumen.Number
