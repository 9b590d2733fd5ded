import Lumen.Number.Rounding

/-!
# The shortest decimal that reads back

Among the decimals that round to a given double, the one with the fewest digits
is chosen, of several with that many digits the nearest, and of two equally
near the one with the even last digit.  On the grid of decimals with a given
number of digits only the two neighbours of the value need a test.  The exact
expansion of the value stands behind the search; it always reads back.
-/

namespace Lumen.Number

/-- Moves the zeros at the end of the digits into the exponent. -/
def Decimal.trim (decimal : Decimal) : Decimal :=
  if decimal.digits = 0 then ⟨0, 0⟩
  else if decimal.digits % 10 = 0 then
    Decimal.trim ⟨decimal.digits / 10, decimal.exponent + 1⟩
  else decimal
termination_by decimal.digits
decreasing_by exact Nat.div_lt_self (by omega) (by omega)

/-- The number of decimal digits of a whole number.  Large numbers lose sixteen
digits at a time. -/
def digitCount (number : Nat) : Nat :=
  if number < 10 then 1
  else if number < Nat.pow 10 16 then digitCount (number / 10) + 1
  else digitCount (number / Nat.pow 10 16) + 16
termination_by number
decreasing_by
  · exact Nat.div_lt_self (by omega) (by omega)
  · exact Nat.div_lt_self (by omega) (by decide)

/-- The exponent of the leading decimal digit of a positive word's value.  The
least value is above `10 ^ -324`, so that many places bring every leading digit
in front of the point. -/
def leadingExponent (word : Nat) : Int :=
  digitCount (wordUnits word * Nat.pow 10 324 / unitsPerOne) - 325

/-- A word's value in steps of `10 ^ exponent`, as a fraction. -/
def gridFraction (word : Nat) (exponent : Int) : Nat × Nat :=
  (wordUnits word * Nat.pow 10 (-exponent).toNat, unitsPerOne * Nat.pow 10 exponent.toNat)

/-- The neighbours of a word's value on a decimal grid, the nearer one first. -/
def neighbours (word : Nat) (exponent : Int) : List Decimal :=
  let (numerator, denominator) := gridFraction word exponent
  let below := numerator / denominator
  if roundHalfEven numerator denominator = below then
    [⟨below, exponent⟩, ⟨below + 1, exponent⟩]
  else [⟨below + 1, exponent⟩, ⟨below, exponent⟩]

def exactDecimal (word : Nat) : Decimal :=
  ⟨wordUnits word * Nat.pow 5 1074, -1074⟩

/-- No double needs more digits to be told from its neighbours. -/
def maxSignificant : Nat := 17

/-- The neighbour of a word's value on a decimal grid that rounds to the word, the
nearer one if both do. -/
def onGrid? (word : Nat) (exponent : Int) : Option Decimal :=
  (neighbours word exponent).find? fun decimal => decimal.word == word

/-- The shortest decimal that rounds to a finite word. -/
def shortest (word : Nat) : Decimal :=
  let leading := leadingExponent word
  let found := (List.range maxSignificant).findSome? fun (extra : Nat) =>
    onGrid? word (leading - extra)
  (found.getD (exactDecimal word)).trim

end Lumen.Number
