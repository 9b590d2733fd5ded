/-!
# A cursor over source text

The cursor reads a text character by character and counts the lines it passes.
It may be placed anywhere: behind the end it reads nothing, and a negative
position counts from the end.
-/

namespace Lumen

structure Cursor where
  source : List Char
  position : Int := 0
  line : Int := 1
  deriving DecidableEq, Repr

namespace Cursor

/-- Why no character can be read. -/
inductive Fault where
  | pastEnd (position line : Int)
  | beforeStart
  deriving DecidableEq, Repr

def Fault.message : Fault → String
  | .pastEnd position line =>
      "Attempted to read past end of source at position=<" ++ toString position ++
        ">, line=<" ++ toString line ++ ">"
  | .beforeStart => "string index out of range"

def atEnd (cursor : Cursor) : Bool :=
  (cursor.source.length : Int) ≤ cursor.position

/-- The character at an offset from the position, if both ends of the source
allow it. -/
def peek (cursor : Cursor) (offset : Int) : Option Char :=
  let index := cursor.position + offset
  if index < 0 then none else cursor.source[index.toNat]?

/-- The character that the next step reads. -/
def current? (cursor : Cursor) : Option Char :=
  if cursor.position < 0 then
    let index := cursor.position + cursor.source.length
    if index < 0 then none else cursor.source[index.toNat]?
  else cursor.source[cursor.position.toNat]?

def next (cursor : Cursor) : Except Fault (Char × Cursor) :=
  if cursor.atEnd then .error (.pastEnd cursor.position cursor.line)
  else
    match cursor.current? with
    | none => .error .beforeStart
    | some c =>
        .ok (c, { cursor with
          position := cursor.position + 1
          line := if c == '\n' then cursor.line + 1 else cursor.line })

/-- Reads one character if it is the expected one.  Nothing else than a text of
exactly one character can be expected with success. -/
def accept (cursor : Cursor) (expected : String) : Bool × Cursor :=
  match cursor.peek 0 with
  | none => (false, cursor)
  | some c =>
      if expected.toList == [c] then
        match cursor.next with
        | .ok (_, moved) => (true, moved)
        | .error _ => (false, cursor)
      else (false, cursor)

end Cursor

end Lumen
