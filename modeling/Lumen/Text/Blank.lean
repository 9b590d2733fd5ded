/-!
# Blank characters

An interactive line is compared with the commands after the blanks around it
are dropped.  The blanks are those of every script, not only the four that the
language itself skips between tokens.
-/

namespace Lumen.Text

/-- Characters that count as blank around an interactive line. -/
def isBlank (c : Char) : Bool :=
  let code := c.toNat
  (0x09 ≤ code && code ≤ 0x0D) || (0x1C ≤ code && code ≤ 0x20) ||
    code == 0x85 || code == 0xA0 || code == 0x1680 ||
    (0x2000 ≤ code && code ≤ 0x200A) || code == 0x2028 || code == 0x2029 ||
    code == 0x202F || code == 0x205F || code == 0x3000

/-- Drops the characters that satisfy `drop` at both ends of a text. -/
def trimWhere (drop : Char → Bool) (text : List Char) : List Char :=
  ((text.dropWhile drop).reverse.dropWhile drop).reverse

def strip (text : String) : String :=
  String.ofList (trimWhere isBlank text.toList)

end Lumen.Text
