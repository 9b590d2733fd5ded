import Lumen.Diagnostic

/-!
# Scanning

Source text is cut into pieces: blanks, comments, tokens and faults.  A piece
is classified by its first character and what follows, and the classification
says how many further characters belong to it, so the pieces cover the source
without gap or overlap.  Tokens and diagnostics are read off the pieces.
-/

namespace Lumen

/-- What is wrong with a piece of source text. -/
inductive ScanFault where
  | unexpected (c : Char)
  | unterminatedString
  | unterminatedComment
  deriving DecidableEq, Repr

def ScanFault.message : ScanFault → String
  | unexpected c => "Unexpected character '" ++ String.singleton c ++ "'."
  | unterminatedString => "Unterminated string."
  | unterminatedComment => "Unterminated block comment."

inductive Shape where
  | blank
  | comment
  | token (kind : Kind) (literal : Option Value)
  | fault (cause : ScanFault)
  deriving DecidableEq

/-- A piece of source text with the line of its first character. -/
structure Piece where
  shape : Shape
  text : List Char
  line : Int
  deriving DecidableEq

namespace Scan

def isSpace (c : Char) : Bool :=
  c == ' ' || c == '\r' || c == '\t' || c == '\n'

def isDigit (c : Char) : Bool :=
  '0' ≤ c && c ≤ '9'

def isNameStart (c : Char) : Bool :=
  ('a' ≤ c && c ≤ 'z') || ('A' ≤ c && c ≤ 'Z') || c == '_'

def isNamePart (c : Char) : Bool :=
  isNameStart c || isDigit c

/-- How many leading characters satisfy a condition. -/
def runLength (condition : Char → Bool) (text : List Char) : Nat :=
  (text.takeWhile condition).length

/-- How many characters it takes to close `depth` open block comments, on top of
those counted already; nothing if the text ends before. -/
def commentLength? : Nat → Nat → List Char → Option Nat
  | 0, counted, _ => some counted
  | _ + 1, _, [] => none
  | depth + 1, counted, '/' :: '*' :: rest => commentLength? (depth + 2) (counted + 2) rest
  | depth + 1, counted, '*' :: '/' :: rest => commentLength? depth (counted + 2) rest
  | depth + 1, counted, _ :: rest => commentLength? (depth + 1) (counted + 1) rest

def digitsValue (digits : List Char) : Nat :=
  digits.foldl (fun total c => 10 * total + (c.toNat - '0'.toNat)) 0

/-- The value of a number with the given whole part and fraction. -/
def numberValue (whole fraction : List Char) : Value :=
  .number (Number.Decimal.toFloat ⟨digitsValue (whole ++ fraction), -(fraction.length : Int)⟩)

/-- Classifies a number by the characters behind its first digit.  A point
belongs to it only if a digit follows. -/
def classifyNumber (first : Char) (rest : List Char) : Shape × Nat :=
  let whole := rest.takeWhile isDigit
  let fraction :=
    match rest.drop whole.length with
    | '.' :: more => more.takeWhile isDigit
    | _ => []
  let length := if fraction.isEmpty then whole.length else whole.length + 1 + fraction.length
  (.token .number (some (numberValue (first :: whole) fraction)), length)

/-- Classifies a string by the characters behind its opening quote. -/
def classifyString (rest : List Char) : Shape × Nat :=
  let body := rest.takeWhile (· != '"')
  if body.length < rest.length then
    (.token .string (some (.text (String.ofList body))), body.length + 1)
  else (.fault .unterminatedString, body.length)

def wordLiteral : Kind → Option Value
  | .trueWord => some (.boolean true)
  | .falseWord => some (.boolean false)
  | .nilWord => some .nil
  | _ => none

/-- Classifies a name or keyword by the characters behind its first one. -/
def classifyWord (first : Char) (rest : List Char) : Shape × Nat :=
  let more := rest.takeWhile isNamePart
  let kind := Kind.ofWord (String.ofList (first :: more))
  (.token kind (wordLiteral kind), more.length)

/-- Classifies what a slash begins. -/
def classifySlash (rest : List Char) : Shape × Nat :=
  match rest with
  | '/' :: _ => (.comment, runLength (· != '\n') rest)
  | '*' :: body =>
      match commentLength? 1 1 body with
      | some length => (.comment, length)
      | none => (.fault .unterminatedComment, rest.length)
  | _ => (.token .slash none, 0)

/-- What the piece that begins with `first` is, and how many characters of
`rest` belong to it. -/
def classify (first : Char) (rest : List Char) : Shape × Nat :=
  if isSpace first then (.blank, 0)
  else
    match rest.head?.bind (Kind.ofPair? first) with
    | some kind => (.token kind none, 1)
    | none =>
        if first == '/' then classifySlash rest
        else
          match Kind.ofChar? first with
          | some kind => (.token kind none, 0)
          | none =>
              if first == '"' then classifyString rest
              else if isDigit first then classifyNumber first rest
              else if isNameStart first then classifyWord first rest
              else (.fault (.unexpected first), 0)

def lineCount (text : List Char) : Nat :=
  text.count '\n'

/-- The pieces of a text that begins on a given line. -/
def pieces (line : Int) : List Char → List Piece
  | [] => []
  | first :: rest =>
      let (shape, length) := classify first rest
      let text := first :: rest.take length
      ⟨shape, text, line⟩ :: pieces (line + lineCount text) (rest.drop length)
termination_by text => text.length
decreasing_by simp only [List.length_drop, List.length_cons]; omega

end Scan

namespace Piece

def token? (piece : Piece) : Option Token :=
  match piece.shape with
  | .token kind literal => some ⟨kind, String.ofList piece.text, literal, piece.line⟩
  | _ => none

/-- The line after the piece's last character. -/
def lastLine (piece : Piece) : Int :=
  piece.line + Scan.lineCount piece.text

/-- The line that a fault is reported on: a comment that never closes is
noticed where the source ends, anything else where it begins. -/
def faultLine (piece : Piece) : ScanFault → Int
  | .unterminatedComment => piece.lastLine
  | _ => piece.line

def diagnostic? (piece : Piece) : Option Diagnostic :=
  match piece.shape with
  | .fault cause => some ⟨.scanning, piece.faultLine cause, none, cause.message⟩
  | _ => none

end Piece

/-- The tokens of a source, closed by the end token, and its lexical mistakes. -/
structure Scan where
  tokens : List Token
  errors : List Diagnostic
  deriving DecidableEq

namespace Scan

def endLine (source : List Char) : Int :=
  1 + lineCount source

def ofSource (source : String) : Scan :=
  let found := pieces 1 source.toList
  { tokens := found.filterMap Piece.token? ++ [Token.endAt (endLine source.toList)]
    errors := found.filterMap Piece.diagnostic? }

/-- The tokens of a source without lexical mistakes, and otherwise the batch of
its mistakes. -/
def strict (source : String) : Except Report (List Token) :=
  let scan := ofSource source
  match Report.ofList? (scan.errors.map Report.single) with
  | some batch => .error batch
  | none => .ok scan.tokens

end Scan

end Lumen
