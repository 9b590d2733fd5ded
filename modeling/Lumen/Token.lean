import Lumen.Kind
import Lumen.Value

/-!
# Tokens

A token is a stretch of source text with its kind, the value it stands for, if
any, and the line of its first character.
-/

namespace Lumen

structure Token where
  kind : Kind
  lexeme : String
  literal : Option Value := none
  line : Int := 1
  deriving DecidableEq, Inhabited

namespace Token

/-- The token that ends every token sequence. -/
def endAt (line : Int) : Token where
  kind := .eof
  lexeme := ""
  literal := none
  line := line

/-- Equality of a token and anything else, with the equality of values on the
literals.  Nothing but a token equals a token. -/
def same (token : Token) : Option Token → Bool
  | none => false
  | some other =>
      token.kind == other.kind && token.lexeme == other.lexeme && token.line == other.line &&
        match token.literal, other.literal with
        | some left, some right => left.same right
        | none, none => true
        | _, _ => false

def dump (token : Token) : String :=
  token.kind.name ++ " " ++ token.lexeme ++ " " ++
    (token.literal.elim "None" Value.display) ++ " " ++ toString token.line

/-- A token as messages name it. -/
def describe (token : Token) : String :=
  let literal := token.literal.elim "" fun value => ", " ++ value.display
  "Token(" ++ token.kind.name ++ ", " ++ Text.quoted token.lexeme ++ literal ++ ")"

def immutableMessage (field : String) : String :=
  "Token is immutable; cannot set " ++ Text.quoted field

end Token

end Lumen
