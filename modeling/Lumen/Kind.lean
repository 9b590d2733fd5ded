/-!
# Token kinds

The kinds of the language's tokens, their names in dumps, and the tables that
go from source text to kinds.  A token that was built by hand may have a kind
the language does not know; it is kept under its own name.
-/

namespace Lumen

inductive Kind where
  | leftParen | rightParen | leftBrace | rightBrace
  | comma | dot | minus | plus | semicolon | slash | star
  | bang | bangEqual | equal | equalEqual
  | greater | greaterEqual | less | lessEqual
  | identifier | string | number
  | andWord | classWord | elseWord | falseWord | forWord | funcWord | ifWord | nilWord
  | orWord | printWord | returnWord | superWord | thisWord | trueWord | varWord | whileWord
  | eof
  | other (name : String)
  deriving DecidableEq, Repr, Inhabited

namespace Kind

def name : Kind → String
  | leftParen => "LEFT_PAREN"
  | rightParen => "RIGHT_PAREN"
  | leftBrace => "LEFT_BRACE"
  | rightBrace => "RIGHT_BRACE"
  | comma => "COMMA"
  | dot => "DOT"
  | minus => "MINUS"
  | plus => "PLUS"
  | semicolon => "SEMICOLON"
  | slash => "SLASH"
  | star => "STAR"
  | bang => "BANG"
  | bangEqual => "BANG_EQUAL"
  | equal => "EQUAL"
  | equalEqual => "EQUAL_EQUAL"
  | greater => "GREATER"
  | greaterEqual => "GREATER_EQUAL"
  | less => "LESS"
  | lessEqual => "LESS_EQUAL"
  | identifier => "IDENTIFIER"
  | string => "STRING"
  | number => "NUMBER"
  | andWord => "AND"
  | classWord => "CLASS"
  | elseWord => "ELSE"
  | falseWord => "FALSE"
  | forWord => "FOR"
  | funcWord => "FUNC"
  | ifWord => "IF"
  | nilWord => "NIL"
  | orWord => "OR"
  | printWord => "PRINT"
  | returnWord => "RETURN"
  | superWord => "SUPER"
  | thisWord => "THIS"
  | trueWord => "TRUE"
  | varWord => "VAR"
  | whileWord => "WHILE"
  | eof => "EOF"
  | other name => name

def all : List Kind :=
  [leftParen, rightParen, leftBrace, rightBrace, comma, dot, minus, plus, semicolon,
   slash, star, bang, bangEqual, equal, equalEqual, greater, greaterEqual, less,
   lessEqual, identifier, string, number, andWord, classWord, elseWord, falseWord,
   forWord, funcWord, ifWord, nilWord, orWord, printWord, returnWord, superWord,
   thisWord, trueWord, varWord, whileWord, eof]

def ofName (text : String) : Kind :=
  (all.find? fun kind => kind.name == text).getD (other text)

/-- Characters that are tokens by themselves. -/
def ofChar? : Char → Option Kind
  | '(' => some leftParen
  | ')' => some rightParen
  | '\x7b' => some leftBrace
  | '\x7d' => some rightBrace
  | ',' => some comma
  | '.' => some dot
  | '-' => some minus
  | '+' => some plus
  | ';' => some semicolon
  | '/' => some slash
  | '*' => some star
  | '!' => some bang
  | '=' => some equal
  | '>' => some greater
  | '<' => some less
  | _ => none

/-- Pairs of characters that are one token. -/
def ofPair? : Char → Char → Option Kind
  | '!', '=' => some bangEqual
  | '=', '=' => some equalEqual
  | '<', '=' => some lessEqual
  | '>', '=' => some greaterEqual
  | _, _ => none

/-- The words that are not names. -/
def keywords : List (String × Kind) :=
  [("and", andWord), ("class", classWord), ("else", elseWord), ("false", falseWord),
   ("for", forWord), ("func", funcWord), ("if", ifWord), ("nil", nilWord), ("or", orWord),
   ("print", printWord), ("return", returnWord), ("super", superWord), ("this", thisWord),
   ("true", trueWord), ("var", varWord), ("while", whileWord)]

def ofWord (word : String) : Kind :=
  (keywords.lookup word).getD identifier

/-- Words that begin a statement, where reading may resume after a mistake. -/
def startsStatement : Kind → Bool
  | classWord | funcWord | varWord | forWord | ifWord | whileWord | printWord
  | returnWord => true
  | _ => false

/-- Kinds whose tokens stand for a value. -/
def isLiteral : Kind → Bool
  | number | string | trueWord | falseWord | nilWord => true
  | _ => false

end Kind

end Lumen
