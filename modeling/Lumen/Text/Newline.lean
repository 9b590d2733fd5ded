/-!
# Line ends

Script files and interactive input may end their lines with a line feed, a
carriage return, or a carriage return and a line feed.  All three are read as
one line feed.
-/

namespace Lumen.Text

/-- Replaces every line end by a line feed, in front of the reversed text that
was already read. -/
def unifyFrom : List Char → List Char → List Char
  | read, [] => read.reverse
  | read, '\r' :: '\n' :: rest => unifyFrom ('\n' :: read) rest
  | read, '\r' :: rest => unifyFrom ('\n' :: read) rest
  | read, c :: rest => unifyFrom (c :: read) rest

/-- A text in which every line ends with a line feed. -/
def unifyLineEnds (text : List Char) : List Char :=
  unifyFrom [] text

/-- Cuts a text after every line feed and drops the line feeds.  A last line
without line feed counts if it is not empty. -/
def linesFrom : List Char → List Char → List String
  | [], [] => []
  | line, [] => [String.ofList line.reverse]
  | line, '\n' :: rest => String.ofList line.reverse :: linesFrom [] rest
  | line, c :: rest => linesFrom (c :: line) rest

def inputLines (text : String) : List String :=
  linesFrom [] (unifyLineEnds text.toList)

end Lumen.Text
