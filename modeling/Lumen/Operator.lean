import Lumen.Kind
import Lumen.Value

/-!
# Operators

What the operators do, by the sorts of their operands.  Arithmetic is that of
doubles, so a division by zero gives an infinity or NaN.  A plus sign joins two
operands to a text as soon as one of them is a text and the other a text or a
number.
-/

namespace Lumen

namespace Operator

def onNumbers (kind : Kind) (left right : Float) : Value :=
  match kind with
  | .plus => .number (left + right)
  | .minus => .number (left - right)
  | .star => .number (left * right)
  | .slash => .number (left / right)
  | .greater => .boolean (right < left)
  | .greaterEqual => .boolean (right ≤ left)
  | .less => .boolean (left < right)
  | .lessEqual => .boolean (left ≤ right)
  | .equalEqual => .boolean (left == right)
  | .bangEqual => .boolean (left != right)
  | _ => .invalid

/-- Operators on operands that can only be told equal or different. -/
def onEquality (kind : Kind) (equal : Bool) : Value :=
  match kind with
  | .equalEqual => .boolean equal
  | .bangEqual => .boolean (!equal)
  | _ => .invalid

/-- Operators on two operands that a plus sign joins to a text. -/
def onTexts (kind : Kind) (left right : String) (equal : Bool) : Value :=
  match kind with
  | .plus => .text (left ++ right)
  | _ => onEquality kind equal

/-- A binary operator on two values; `invalid` where it is not defined. -/
def binary (kind : Kind) (left right : Value) : Value :=
  match left, right with
  | .number left, .number right => onNumbers kind left right
  | .text left, .text right => onTexts kind left right (left == right)
  | .number left, .text right => onTexts kind (Number.display left) right false
  | .text left, .number right => onTexts kind left (Number.display right) false
  | .boolean left, .boolean right => onEquality kind (left == right)
  | .nil, .nil => onEquality kind true
  | .nil, _ => onEquality kind false
  | _, .nil => onEquality kind false
  | _, _ => .invalid

/-- A unary operator on a value, or nothing if the kind is none.  Only numbers
have a negative; that of any other value is nil. -/
def unary? (kind : Kind) (operand : Value) : Option Value :=
  match kind with
  | .minus =>
      match operand with
      | .number value => some (.number (-value))
      | _ => some .nil
  | .bang => some (.boolean (!operand.isTruthy))
  | _ => none

end Operator

end Lumen
