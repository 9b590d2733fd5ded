import Lumen.Token

/-!
# Syntax trees

Expressions and statements.  A tree built by hand may leave out what a source
always gives: the bracket token of a grouping and the value of a literal.
-/

namespace Lumen

inductive Expr where
  | binary (left : Expr) (operator : Token) (right : Expr)
  | grouping (inner : Expr) (paren : Option Token)
  | literal (value : Option Value)
  | unary (operator : Token) (operand : Expr)
  | reference (name : Token)
  deriving DecidableEq, Inhabited

namespace Expr

/-- The direct parts of an expression, from left to right. -/
def children : Expr → List Expr
  | binary left _ right => [left, right]
  | grouping inner _ => [inner]
  | literal _ => []
  | unary _ operand => [operand]
  | reference _ => []

/-- A size that leaves room for the operator of a binary expression beside its
operands. -/
def weight : Expr → Nat
  | binary left _ right => left.weight + right.weight + 2
  | grouping inner _ => inner.weight + 1
  | literal _ => 1
  | unary _ operand => operand.weight + 1
  | reference _ => 1

/-- The weight of operators with their right operands that wait for a left one. -/
def pendingWeight : List (Token × Expr) → Nat
  | [] => 0
  | (_, right) :: pending => right.weight + 1 + pendingWeight pending

end Expr

inductive Stmt where
  | print (value : Expr)
  | expression (value : Expr)
  | declare (name : Token) (initializer : Option Expr)
  deriving DecidableEq, Inhabited

end Lumen
