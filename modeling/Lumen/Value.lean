import Lumen.Number.Written
import Lumen.Text.Quoted

/-!
# Values

The values of the language are numbers, texts, booleans and nil.  One further
value, `invalid`, marks the result of an operator that its operands do not
support; evaluation turns it into a diagnostic before anything can observe it.
-/

namespace Lumen

inductive Value where
  | number (value : Float)
  | text (value : String)
  | boolean (value : Bool)
  | nil
  /-- The result of an operator on operands it is not defined for. -/
  | invalid
  deriving DecidableEq, Inhabited

namespace Value

/-- Two values are equal if they are of one sort and hold the same.  Numbers
compare as numbers: both zeros are equal, and a NaN differs from every number. -/
def same : Value → Value → Bool
  | number left, number right => left == right
  | text left, text right => left == right
  | boolean left, boolean right => left == right
  | nil, nil => true
  | invalid, invalid => true
  | _, _ => false

/-- The text that a print statement writes for a value. -/
def display : Value → String
  | number value => Number.display value
  | text value => value
  | boolean value => if value then "true" else "false"
  | nil => "nil"
  | invalid => "<invalid operation>"

def logText : Value → String
  | number value => "Number(value=" ++ Number.write Number.logged value ++ ")"
  | text value => "Text(value=" ++ Text.quoted value ++ ")"
  | boolean value => if value then "Boolean(value=True)" else "Boolean(value=False)"
  | nil => "Nil()"
  | invalid => "InvalidOperation()"

/-- Only `false` and `nil` count as false. -/
def isTruthy : Value → Bool
  | nil => false
  | boolean value => value
  | _ => true

/-- Orders two values.  Only two numbers, neither of them NaN, and two nils have
an order. -/
def order? : Value → Value → Option Ordering
  | number left, number right =>
      if left.isNaN || right.isNaN then none
      else if right < left then some .gt
      else if left < right then some .lt
      else some .eq
  | nil, nil => some .eq
  | _, _ => none

end Value

end Lumen
