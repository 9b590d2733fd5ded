import Lumen.Grammar.Expression

/-!
# Reading programs

A program is a sequence of declarations.  Where one cannot be read, the fault
is recorded and reading resumes at the next boundary: behind a semicolon or in
front of a word that begins a statement.  At least the token at fault is
skipped, so every declaration uses up tokens, whether it can be read or not.
-/

namespace Lumen

namespace Grammar

def closedExpression (limits : Limits) (fault : GrammarFault) (tokens : List Token) :
    Reading tokens Expr :=
  (expression limits outermost tokens).andThen fun value rest =>
    (Reading.expect .semicolon fault rest).map fun _ => value

/-- Reads what follows the name in a declaration. -/
def initializer (limits : Limits) (tokens : List Token) : Reading tokens (Option Expr) :=
  match tokens with
  | first :: rest =>
      if first.kind = .equal then
        match closedExpression limits .expectedEndOfDeclaration rest with
        | .done value later shorter =>
            .done (some value) later (Reading.shorter_cons first shorter)
        | .failed fault later within =>
            .failed fault later (Reading.within_cons first within)
      else
        (Reading.expect .semicolon .expectedEndOfDeclaration (first :: rest)).map fun _ => none
  | [] => .failed .expectedEndOfDeclaration [] Reading.within_nil

def declaration (limits : Limits) (tokens : List Token) : Reading tokens Stmt :=
  match tokens with
  | [] => .failed .expectedExpression [] Reading.within_nil
  | first :: rest =>
      if first.kind = .varWord then
        (Reading.done first rest (Reading.tail_shorter first rest)).andThen fun _ rest =>
          (Reading.expect .identifier .expectedName rest).andThen fun name rest =>
            (initializer limits rest).map (Stmt.declare name)
      else if first.kind = .printWord then
        (Reading.done first rest (Reading.tail_shorter first rest)).andThen fun _ rest =>
          (closedExpression limits .expectedEndOfPrint rest).map Stmt.print
      else
        (closedExpression limits .expectedEndOfStatement (first :: rest)).map Stmt.expression

/-- Skips to the next boundary behind a token. -/
def skipFrom (previous : Token) : List Token → List Token
  | [] => []
  | current :: rest =>
      if previous.kind = .semicolon then current :: rest
      else if current.kind.startsStatement then current :: rest
      else skipFrom current rest

/-- Where reading resumes after a fault at the front of the given tokens. -/
def resume : List Token → List Token
  | [] => []
  | first :: rest => skipFrom first rest

theorem length_skipFrom_le (previous : Token) (tokens : List Token) :
    (skipFrom previous tokens).length ≤ tokens.length := by
  induction tokens generalizing previous with
  | nil => simp [skipFrom]
  | cons current rest ih =>
      have hrest := ih current
      simp only [skipFrom]
      split
      · simp
      · split
        · simp
        · simp only [List.length_cons]; omega

/-- Reading resumes behind the token at fault at the earliest. -/
theorem length_resume_le (tokens : List Token) :
    (resume tokens).length ≤ tokens.length - 1 := by
  cases tokens with
  | nil => simp [resume]
  | cons first rest => simpa [resume] using length_skipFrom_le first rest

/-- A declaration that was read, with the tokens behind it, or a fault with the
tokens from the one at fault on. -/
inductive Entry where
  | statement (stmt : Stmt) (rest : List Token)
  | mistake (fault : GrammarFault) (rest : List Token)
  deriving DecidableEq

/-- Reads declarations to the end. -/
def entries (limits : Limits) (tokens : List Token) : List Entry :=
  match tokens with
  | [] => []
  | first :: more =>
      match declaration limits (first :: more) with
      | .done stmt rest _ => .statement stmt rest :: entries limits rest
      | .failed fault rest _ => .mistake fault rest :: entries limits (resume rest)
termination_by tokens.length
decreasing_by
  · assumption
  · have hresume := length_resume_le rest
    have hrest : rest.length ≤ (first :: more).length := by assumption
    simp only [List.length_cons] at hrest ⊢
    omega

namespace Entry

def statement? : Entry → Option Stmt
  | statement stmt _ => some stmt
  | mistake _ _ => none

def diagnostic? (sentence : Sentence) : Entry → Option Diagnostic
  | statement _ _ => none
  | mistake fault rest => some (sentence.diagnostic fault rest)

/-- The tokens that the entry leaves for those behind it. -/
def remaining : Entry → List Token
  | statement _ rest => rest
  | mistake _ rest => resume rest

end Entry

/-- The tokens that entries read off some tokens leave. -/
def unread (tokens : List Token) (found : List Entry) : List Token :=
  found.foldl (fun _ entry => entry.remaining) tokens

end Grammar

/-- The statements that could be read off a token sequence, the mistakes, and
how many tokens were used up. -/
structure Program where
  statements : List Stmt
  errors : List Diagnostic
  position : Nat
  deriving DecidableEq

namespace Program

def ofTokens (limits : Limits) (tokens : List Token) : Program :=
  let sentence := Sentence.ofTokens tokens
  let found := Grammar.entries limits sentence.body
  { statements := found.filterMap Grammar.Entry.statement?
    errors := found.filterMap (Grammar.Entry.diagnostic? sentence)
    position := sentence.body.length - (Grammar.unread sentence.body found).length }

/-- The statements of a token sequence without mistakes, and otherwise the
batch of its mistakes. -/
def strict (limits : Limits) (tokens : List Token) : Except Report (List Stmt) :=
  let program := ofTokens limits tokens
  match Report.ofList? (program.errors.map Report.single) with
  | some batch => .error batch
  | none => .ok program.statements

end Program

/-- Reads exactly one expression off a token sequence. -/
def Expr.ofTokens (limits : Limits) (tokens : List Token) : Except Diagnostic Expr :=
  let sentence := Sentence.ofTokens tokens
  match Grammar.expression limits Grammar.outermost sentence.body with
  | .failed fault rest _ => .error (sentence.diagnostic fault rest)
  | .done expr [] _ => .ok expr
  | .done _ rest _ => .error (sentence.diagnostic .expectedEndOfExpression rest)

end Lumen
