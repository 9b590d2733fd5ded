import Lumen.Limits
import Lumen.Tree.Expr

/-!
# Trees as text

Trees are shown fully parenthesized with the operator in front.  Chains of
binary operators may be of any length: the loop walks down the left operands
and then attaches operator after operator.  Brackets, prefix operators and the
operands of a chain, the leftmost one included, cost frames of the stack, and a
tree that needs too many is not shown at all.
-/

namespace Lumen

namespace Expr

/-- Frames that a bracket or a prefix operator costs. -/
def renderNested : Nat := 4

/-- Frames that an operand of a chain costs. -/
def renderSideways : Nat := 2

mutual

/-- The text of an expression under the given number of frames. -/
def renderAt (stack : Option Nat) (frames : Nat) (expr : Expr) : Option String :=
  match expr with
  | .literal value => some (value.elim "nil" Value.display)
  | .reference name => some name.lexeme
  | .grouping inner _ =>
      (renderPart stack (frames + renderNested) inner).map fun text => "(group " ++ text ++ ")"
  | .unary operator operand =>
      (renderPart stack (frames + renderNested) operand).map fun text =>
        "(" ++ operator.lexeme ++ " " ++ text ++ ")"
  | .binary left operator right => renderChain stack frames left [(operator, right)]
termination_by 3 * expr.weight
decreasing_by all_goals simp only [weight, pendingWeight]; omega

/-- The text of a part of an expression, whose frames are already counted. -/
def renderPart (stack : Option Nat) (frames : Nat) (expr : Expr) : Option String :=
  if stackHolds stack frames then renderAt stack frames expr else none
termination_by 3 * expr.weight + 1
decreasing_by omega

/-- The text of a leftmost operand with the operators that wait for it. -/
def renderChain (stack : Option Nat) (frames : Nat) (expr : Expr)
    (pending : List (Token × Expr)) : Option String :=
  match expr with
  | .binary left operator right => renderChain stack frames left ((operator, right) :: pending)
  | operand =>
      match renderPart stack (frames + renderSideways) operand with
      | some text => renderOnto stack frames text pending
      | none => none
termination_by 3 * (expr.weight + pendingWeight pending) + 2
decreasing_by
  · simp only [weight, pendingWeight]; omega
  · omega
  · omega

/-- Attaches waiting operators to the text of their left operand. -/
def renderOnto (stack : Option Nat) (frames : Nat) (text : String)
    (pending : List (Token × Expr)) : Option String :=
  match pending with
  | [] => some text
  | (operator, right) :: pending =>
      match renderPart stack (frames + renderSideways) right with
      | some shown =>
          renderOnto stack frames
            ("(" ++ operator.lexeme ++ " " ++ text ++ " " ++ shown ++ ")") pending
      | none => none
termination_by 3 * pendingWeight pending
decreasing_by all_goals simp only [pendingWeight]; omega

end

/-- The text of an expression, or nothing if it nests too deeply for the stack. -/
def render (stack : Option Nat) (expr : Expr) : Option String :=
  renderAt stack 0 expr

end Expr

def Stmt.render (stack : Option Nat) : Stmt → Option String
  | .print value => (value.render stack).map fun text => "(print " ++ text ++ ")"
  | .expression value => (value.render stack).map fun text => "(; " ++ text ++ ")"
  | .declare name none => some ("(var " ++ name.lexeme ++ ")")
  | .declare name (some value) =>
      (value.render stack).map fun text => "(var " ++ name.lexeme ++ " " ++ text ++ ")"

end Lumen
