import Lumen.Diagnostic

/-!
# Reading phrases off tokens

A reading of a phrase takes tokens off the front of a sequence.  It ends with
the phrase and the tokens behind it, or with a fault and the tokens from the
one at fault on.  A phrase holds at least one token, so reading makes progress.
-/

namespace Lumen

/-- What the grammar misses at a token. -/
inductive GrammarFault where
  | expectedName
  | expectedEndOfDeclaration
  | expectedEndOfPrint
  | expectedEndOfStatement
  | expectedClosingParen
  | expectedExpression
  | expectedEndOfExpression
  | tooDeep
  deriving DecidableEq, Repr

/-- The complaint about nesting beyond a limit. -/
def tooDeepMessage : String :=
  "Expression too deeply nested."

def GrammarFault.message : GrammarFault → String
  | expectedName => "Expected variable name."
  | expectedEndOfDeclaration => "Expected ';' after variable declaration."
  | expectedEndOfPrint => "Expected ';' after value."
  | expectedEndOfStatement => "Expected ';' after expression."
  | expectedClosingParen => "Expected ')' after expression."
  | expectedExpression => "Expected expression."
  | expectedEndOfExpression => "Expected end of expression."
  | tooDeep => tooDeepMessage

/-- The outcome of reading a phrase off the front of `tokens`. -/
inductive Reading (tokens : List Token) (α : Type) where
  | done (phrase : α) (rest : List Token) (shorter : rest.length < tokens.length)
  | failed (fault : GrammarFault) (rest : List Token) (within : rest.length ≤ tokens.length)

namespace Reading

/-! ## How much is left -/

section Lengths

variable {rest later final : List Token}

theorem within_nil : ([] : List Token).length ≤ ([] : List Token).length :=
  Nat.le_refl _

theorem within_self (first : Token) (rest : List Token) :
    (first :: rest).length ≤ (first :: rest).length :=
  Nat.le_refl _

theorem tail_shorter (first : Token) (rest : List Token) : rest.length < (first :: rest).length :=
  Nat.lt_succ_self _

theorem tail_within (first : Token) (rest : List Token) : rest.length ≤ (first :: rest).length :=
  Nat.le_succ _

theorem shorter_cons (first : Token) (shorter : later.length < rest.length) :
    later.length < (first :: rest).length :=
  Nat.lt_succ_of_lt shorter

theorem within_cons (first : Token) (within : later.length ≤ rest.length) :
    later.length ≤ (first :: rest).length :=
  Nat.le_succ_of_le within

theorem shorter_cons_of_shorter (first : Token) (shorter : later.length < rest.length)
    (further : final.length < later.length) : final.length < (first :: rest).length :=
  shorter_cons first (Nat.lt_trans further shorter)

theorem within_cons_of_shorter (first : Token) (shorter : later.length < rest.length)
    (within : final.length ≤ later.length) : final.length ≤ (first :: rest).length :=
  within_cons first (Nat.le_trans within (Nat.le_of_lt shorter))

end Lengths

variable {tokens : List Token} {α β : Type}

/-- Reads on behind a phrase. -/
def andThen (reading : Reading tokens α)
    (next : α → (rest : List Token) → Reading rest β) : Reading tokens β :=
  match reading with
  | failed fault rest within => failed fault rest within
  | done phrase rest shorter =>
      match next phrase rest with
      | failed fault later within => failed fault later (by omega)
      | done following later further => done following later (by omega)

def map (change : α → β) : Reading tokens α → Reading tokens β
  | done phrase rest shorter => done (change phrase) rest shorter
  | failed fault rest within => failed fault rest within

def expect (kind : Kind) (fault : GrammarFault) : (tokens : List Token) → Reading tokens Token
  | [] => failed fault [] within_nil
  | first :: rest =>
      if first.kind = kind then done first rest (tail_shorter first rest)
      else failed fault (first :: rest) (within_self first rest)

end Reading

/-- Tokens up to the first end token, and that end token. -/
structure Sentence where
  body : List Token
  stop : Token
  deriving DecidableEq

namespace Sentence

/-- Cuts a token sequence at its first end token.  Where there is none, the end
token stands on the line of the last token, or on the first line. -/
def ofTokens (tokens : List Token) : Sentence where
  body := tokens.takeWhile (·.kind != .eof)
  stop := (tokens.find? (·.kind == .eof)).getD
    (Token.endAt (tokens.getLast?.elim 1 Token.line))

/-- The token at the front of what is left of the body. -/
def current (sentence : Sentence) (rest : List Token) : Token :=
  rest.headD sentence.stop

/-- The diagnostic about a fault at the front of what is left of the body. -/
def diagnostic (sentence : Sentence) (fault : GrammarFault) (rest : List Token) : Diagnostic :=
  .about .parsing (sentence.current rest) fault.message

end Sentence

end Lumen
