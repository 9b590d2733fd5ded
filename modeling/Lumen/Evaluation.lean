import Lumen.Bindings
import Lumen.Operator
import Lumen.Limits
import Lumen.Grammar.Reading
import Lumen.Tree.Walk

/-!
# Evaluating expressions

An expression is evaluated from left to right under some bindings.  Chains of
binary operators may be of any length: the loop walks down the left operands
and then applies operator after operator.  Brackets and prefix operators count
for the depth limit; they and the operands of a chain, the leftmost one
included, cost frames of the stack.
-/

namespace Lumen

/-- Why an expression has no value. -/
inductive RuntimeFault where
  /-- The operator is not defined for its operands. -/
  | illegal (operator : Token)
  | undefined (name : Token)
  /-- An expression, with the first token in it, nests beyond the depth limit. -/
  | tooDeep (token : Option Token)
  /-- The stack is exhausted. -/
  | overflow
  /-- A prefix operator that the language does not have. -/
  | unknownOperator (kind : Kind)
  deriving DecidableEq

namespace RuntimeFault

def illegalMessage : String :=
  "Illegal expression"

def undefinedMessage (name : String) : String :=
  "Undefined variable '" ++ name ++ "'."

def unknownOperatorMessage (kind : Kind) : String :=
  "Unknown unary operator: " ++ kind.name

/-- The diagnostic about nesting that is too deep; without a token it has no
line to name. -/
def tooDeepDiagnostic : Option Token → Diagnostic
  | some token => .about .running token tooDeepMessage
  | none => ⟨.running, 0, none, tooDeepMessage⟩

def illegalDiagnostic (operator : Token) : Diagnostic :=
  .about .running operator illegalMessage

def undefinedDiagnostic (name : Token) : Diagnostic :=
  .about .running name (undefinedMessage name.lexeme)

/-- The diagnostic about a fault of the program.  An exhausted stack and an
unknown operator are faults of the evaluator's use. -/
def diagnostic? : RuntimeFault → Option Diagnostic
  | illegal operator => some (illegalDiagnostic operator)
  | undefined name => some (undefinedDiagnostic name)
  | tooDeep token => some (tooDeepDiagnostic token)
  | overflow => none
  | unknownOperator _ => none

end RuntimeFault

namespace Bindings

def value (bindings : Bindings) (name : Token) : Except RuntimeFault Value :=
  match bindings.get? name.lexeme with
  | some value => .ok value
  | none => .error (.undefined name)

end Bindings

def applyBinary (operator : Token) (left right : Value) : Except RuntimeFault Value :=
  match Operator.binary operator.kind left right with
  | .invalid => .error (.illegal operator)
  | value => .ok value

def applyUnary (operator : Token) (operand : Value) : Except RuntimeFault Value :=
  match Operator.unary? operator.kind operand with
  | some value => .ok value
  | none => .error (.unknownOperator operator.kind)

namespace Expr

/-- Frames that a level of nesting or an operand of a chain costs while evaluating. -/
def evaluateFrames : Nat := 3

mutual

def evaluateAt (limits : Limits) (bindings : Bindings) (load : Load) (expr : Expr) :
    Except RuntimeFault Value :=
  match expr with
  | .literal value => .ok (value.getD .nil)
  | .reference name => bindings.value name
  | .grouping inner paren =>
      if !limits.holdsDepth (load.deeper evaluateFrames) then
        .error (.tooDeep (firstToken? (.grouping inner paren)))
      else if !limits.holdsFrames (load.deeper evaluateFrames) then .error .overflow
      else evaluateAt limits bindings (load.deeper evaluateFrames) inner
  | .unary operator operand =>
      if !limits.holdsDepth (load.deeper evaluateFrames) then
        .error (.tooDeep (firstToken? (.unary operator operand)))
      else if !limits.holdsFrames (load.deeper evaluateFrames) then .error .overflow
      else
        match evaluateAt limits bindings (load.deeper evaluateFrames) operand with
        | .ok value => applyUnary operator value
        | .error fault => .error fault
  | .binary left operator right => evaluateChain limits bindings load left [(operator, right)]
termination_by 3 * expr.weight
decreasing_by all_goals simp only [weight, pendingWeight]; omega

/-- Evaluates an operand of a chain, whose frames the load already counts. -/
def evaluateOperand (limits : Limits) (bindings : Bindings) (load : Load) (operand : Expr) :
    Except RuntimeFault Value :=
  if !limits.holdsFrames load then .error .overflow
  else evaluateAt limits bindings load operand
termination_by 3 * operand.weight + 1
decreasing_by omega

/-- Evaluates a leftmost operand and then the operators that wait for it. -/
def evaluateChain (limits : Limits) (bindings : Bindings) (load : Load) (expr : Expr)
    (pending : List (Token × Expr)) : Except RuntimeFault Value :=
  match expr with
  | .binary left operator right =>
      evaluateChain limits bindings load left ((operator, right) :: pending)
  | operand =>
      match evaluateOperand limits bindings (load.sideways evaluateFrames) operand with
      | .ok value => evaluateOnto limits bindings load value pending
      | .error fault => .error fault
termination_by 3 * (expr.weight + pendingWeight pending) + 2
decreasing_by
  · simp only [weight, pendingWeight]; omega
  · omega
  · omega

/-- Applies waiting operators to the value of their left operand. -/
def evaluateOnto (limits : Limits) (bindings : Bindings) (load : Load) (left : Value)
    (pending : List (Token × Expr)) : Except RuntimeFault Value :=
  match pending with
  | [] => .ok left
  | (operator, operand) :: pending =>
      match evaluateOperand limits bindings (load.sideways evaluateFrames) operand with
      | .error fault => .error fault
      | .ok right =>
          match applyBinary operator left right with
          | .error fault => .error fault
          | .ok value => evaluateOnto limits bindings load value pending
termination_by 3 * pendingWeight pending
decreasing_by all_goals simp only [pendingWeight]; omega

end

def evaluate (limits : Limits) (bindings : Bindings) (expr : Expr) : Except RuntimeFault Value :=
  evaluateAt limits bindings .empty expr

end Expr

end Lumen
