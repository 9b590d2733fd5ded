import Lumen.Text.Blank
import Lumen.Text.DecimalDigit

/-!
# Integers in settings

A whole number in a setting may be padded with blanks, may carry one sign, may
use the digits of any script, and may group its digits by single underscores.
It is unbounded, but its text may hold no more than `maxDigits` digits.
-/

namespace Lumen.Text

/-- The longest digit string that is read as a number. -/
def maxDigits : Nat := 4300

/-- Blanks that may pad a number: the information separators may not. -/
def isPadding (c : Char) : Bool :=
  isBlank c && !(0x1C ≤ c.toNat && c.toNat ≤ 0x1F)

/-- Digit values of a digit string in which single underscores may stand
between two digits.  The flag says whether a digit came just before. -/
def groupedDigits : Bool → List Char → Option (List Nat)
  | afterDigit, [] => if afterDigit then some [] else none
  | afterDigit, c :: rest =>
      match digitValue? c with
      | some value => (groupedDigits true rest).map (value :: ·)
      | none =>
          if c == '_' && afterDigit then groupedDigits false rest else none

def ofDigits (digits : List Nat) : Nat :=
  digits.foldl (fun total digit => 10 * total + digit) 0

def readMagnitude (text : List Char) : Option Nat := do
  let digits ← groupedDigits false text
  if digits.length ≤ maxDigits then some (ofDigits digits) else none

/-- Reads a whole number, or nothing if the text is not one. -/
def readInteger (text : String) : Option Int :=
  match trimWhere isPadding text.toList with
  | '-' :: rest => (readMagnitude rest).map fun magnitude => -(magnitude : Int)
  | '+' :: rest => (readMagnitude rest).map fun magnitude => (magnitude : Int)
  | rest => (readMagnitude rest).map fun magnitude => (magnitude : Int)

end Lumen.Text
