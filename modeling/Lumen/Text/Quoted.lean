import Lumen.Text.Printable

/-!
# Quoted text

Messages show foreign text between quotes so that its ends and its unprintable
characters can be seen.  The single quote delimits, unless the text itself
holds single quotes and no double quote.
-/

namespace Lumen.Text

/-- The last `width` hexadecimal digits of a number, in lower case. -/
def hexDigits : Nat → Nat → List Char
  | 0, _ => []
  | width + 1, number => hexDigits width (number / 16) ++ [Nat.digitChar (number % 16)]

def delimiter (text : List Char) : Char :=
  if text.contains '\'' && !text.contains '"' then '"' else '\''

/-- How one character is shown between the given delimiters. -/
def showChar (quote c : Char) : List Char :=
  if c == quote || c == '\\' then ['\\', c]
  else if c == '\n' then ['\\', 'n']
  else if c == '\r' then ['\\', 'r']
  else if c == '\t' then ['\\', 't']
  else if isPrintable c then [c]
  else if c.toNat < 0x100 then '\\' :: 'x' :: hexDigits 2 c.toNat
  else if c.toNat < 0x10000 then '\\' :: 'u' :: hexDigits 4 c.toNat
  else '\\' :: 'U' :: hexDigits 8 c.toNat

def quoted (text : String) : String :=
  let quote := delimiter text.toList
  String.ofList (quote :: text.toList.flatMap (showChar quote) ++ [quote])

end Lumen.Text
