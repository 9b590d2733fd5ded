import Lumen.Number.Shortest

/-!
# How numbers are written

The digits of a number are always the shortest that read back.  A style says
which exponents are written out in places and how whole and non-finite numbers
look.
-/

namespace Lumen.Number

/-- The decisions of a way to write numbers. -/
structure Style where
  /-- Whether a number whose leading digit has this exponent is written out in
  places. -/
  positional : Int → Bool
  /-- What follows a number that is whole. -/
  wholeEnding : String
  nan : String

def digitText (number : Nat) : List Char :=
  Nat.toDigits 10 number

/-- A decimal written out in places, without its ending if it is whole. -/
def positionalText (decimal : Decimal) : List Char :=
  let digits := digitText decimal.digits
  let places := (-decimal.exponent).toNat
  if places = 0 then digits ++ List.replicate decimal.exponent.toNat '0'
  else if places < digits.length then
    digits.take (digits.length - places) ++ '.' :: digits.drop (digits.length - places)
  else '0' :: '.' :: List.replicate (places - digits.length) '0' ++ digits

/-- A decimal written with an exponent of at least two digits. -/
def scientificText (decimal : Decimal) (leading : Int) : List Char :=
  let mantissa :=
    match digitText decimal.digits with
    | [] => []
    | [digit] => [digit]
    | digit :: more => digit :: '.' :: more
  let power := digitText leading.natAbs
  mantissa ++ 'e' :: (if leading < 0 then '-' else '+') ::
    (List.replicate (2 - power.length) '0' ++ power)

/-- A finite number without its sign. -/
def finiteText (style : Style) (word : Nat) : List Char :=
  let decimal := if word = 0 then ⟨0, 0⟩ else shortest word
  let leading := (digitCount decimal.digits : Int) - 1 + decimal.exponent
  if style.positional leading then
    if 0 ≤ decimal.exponent then positionalText decimal ++ style.wholeEnding.toList
    else positionalText decimal
  else scientificText decimal leading

def write (style : Style) (value : Float) : String :=
  let word := magnitudeWord value
  if infinityWord < word then style.nan
  else
    let sign := if isNegative value then ['-'] else []
    let body := if word = infinityWord then ['i', 'n', 'f'] else finiteText style word
    String.ofList (sign ++ body)

/-- How the language prints numbers: all places, and whole numbers bare. -/
def printed : Style where
  positional := fun _ => true
  wholeEnding := ""
  nan := "NaN"

/-- How log lines show numbers: an exponent for the very small and the very
large, and a fraction digit on whole numbers. -/
def logged : Style where
  positional := fun leading => -4 ≤ leading && leading < 16
  wholeEnding := ".0"
  nan := "nan"

/-- The text that the language prints for a number. -/
def display (value : Float) : String :=
  write printed value

end Lumen.Number
