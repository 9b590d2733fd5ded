import Lumen.Limits
import Lumen.Grammar.Reading
import Lumen.Tree.Expr

/-!
# Reading expressions

Binary operators have four tiers of precedence.  A phrase of a tier is a
phrase of the next tighter one, followed by any number of the tier's operators
with further such phrases, grouped to the left.  Below the tightest tier stand
prefix operators, literals, names and bracketed expressions.

Every bracket and every prefix operator opens one more level of nesting.  A
level beyond the limits is a fault at the token that follows the bracket or the
operator.
-/

namespace Lumen

/-- The tiers of binary operators, the tightest first. -/
inductive Tier where
  | factor | term | comparison | equality
  deriving DecidableEq, Repr

namespace Tier

def operators : Tier → List Kind
  | factor => [.slash, .star]
  | term => [.minus, .plus]
  | comparison => [.greater, .greaterEqual, .less, .lessEqual]
  | equality => [.bangEqual, .equalEqual]

def tighter : Tier → Option Tier
  | factor => none
  | term => some factor
  | comparison => some term
  | equality => some comparison

/-- How many tiers lie below, the tightest counting one. -/
def rank : Option Tier → Nat
  | none => 0
  | some factor => 1
  | some term => 2
  | some comparison => 3
  | some equality => 4

theorem rank_tighter_lt (tier : Tier) : rank tier.tighter < rank (some tier) := by
  cases tier <;> decide

theorem rank_le (tier : Option Tier) : rank tier ≤ 4 := by
  rcases tier with _ | tier
  · decide
  · cases tier <;> decide

end Tier

def Kind.isPrefixOperator : Kind → Bool
  | .bang | .minus => true
  | _ => false

namespace Grammar

/-- Frames that a bracket costs while reading. -/
def groupFrames : Nat := 7

/-- Frames that a prefix operator costs while reading. -/
def unaryFrames : Nat := 1

/-- The load of an expression that nothing encloses. -/
def outermost : Load := ⟨1, 0⟩

mutual

/-- Reads an expression under a load that counts its own level. -/
def expression (limits : Limits) (load : Load) (tokens : List Token) : Reading tokens Expr :=
  if limits.admits load then tiered limits load (some .equality) tokens
  else .failed .tooDeep tokens (Nat.le_refl _)
termination_by 10 * tokens.length + 6
decreasing_by simp only [Tier.rank]; omega

/-- Reads a phrase of a tier; no tier stands for what is tighter than all. -/
def tiered (limits : Limits) (load : Load) (tier : Option Tier) (tokens : List Token) :
    Reading tokens Expr :=
  match tier with
  | none => operand limits load tokens
  | some tier =>
      match tiered limits load tier.tighter tokens with
      | .failed fault rest within => .failed fault rest within
      | .done left rest shorter => chain limits load tier tokens left rest shorter
termination_by 10 * tokens.length + Tier.rank tier + 1
decreasing_by
  · omega
  · have hrank := tier.rank_tighter_lt
    omega
  · omega

/-- Reads the operators of a tier with their right operands behind `left`. -/
def chain (limits : Limits) (load : Load) (tier : Tier) (tokens : List Token) (left : Expr)
    (rest : List Token) (shorter : rest.length < tokens.length) : Reading tokens Expr :=
  match rest with
  | [] => .done left [] shorter
  | operator :: after =>
      if operator.kind ∈ tier.operators then
        match tiered limits load tier.tighter after with
        | .failed fault later within =>
            .failed fault later (by simp only [List.length_cons] at shorter; omega)
        | .done right later further =>
            chain limits load tier tokens (.binary left operator right) later
              (by simp only [List.length_cons] at shorter; omega)
      else .done left (operator :: after) shorter
termination_by 10 * rest.length
decreasing_by
  · have hrank := Tier.rank_le tier.tighter
    simp only [List.length_cons]; omega
  · simp only [List.length_cons]; omega

def operand (limits : Limits) (load : Load) (tokens : List Token) : Reading tokens Expr :=
  match tokens with
  | [] => .failed .expectedExpression [] Reading.within_nil
  | first :: rest =>
      if first.kind.isPrefixOperator then
        if limits.admits (load.deeper unaryFrames) then
          match operand limits (load.deeper unaryFrames) rest with
          | .failed fault later within =>
              .failed fault later (Reading.within_cons first within)
          | .done inner later further =>
              .done (.unary first inner) later (Reading.shorter_cons first further)
        else .failed .tooDeep rest (Reading.tail_within first rest)
      else if first.kind.isLiteral then
        .done (.literal first.literal) rest (Reading.tail_shorter first rest)
      else if first.kind = .identifier then
        .done (.reference first) rest (Reading.tail_shorter first rest)
      else if first.kind = .leftParen then
        match expression limits (load.deeper groupFrames) rest with
        | .failed fault later within => .failed fault later (Reading.within_cons first within)
        | .done inner later further =>
            match Reading.expect .rightParen .expectedClosingParen later with
            | .failed fault final within =>
                .failed fault final (Reading.within_cons_of_shorter first further within)
            | .done _ final last =>
                .done (.grouping inner (some first)) final
                  (Reading.shorter_cons_of_shorter first further last)
      else .failed .expectedExpression (first :: rest) (Reading.within_self first rest)
termination_by 10 * tokens.length
decreasing_by all_goals simp only [List.length_cons]; omega

end

end Grammar

end Lumen
