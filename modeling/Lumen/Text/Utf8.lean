/-!
# Decoding script files

A script file is UTF-8.  Decoding runs over the bytes once and stops at the
first byte that no well-formed text could hold there, or at the end of a file
that breaks off inside a character.
-/

namespace Lumen.Text

inductive Utf8Fault where
  /-- No character begins with this byte. -/
  | startByte
  /-- The byte cannot continue the character that has begun. -/
  | continuationByte
  /-- The bytes end inside a character. -/
  | endOfData
  deriving DecidableEq, Repr

def Utf8Fault.reason : Utf8Fault → String
  | .startByte => "invalid start byte"
  | .continuationByte => "invalid continuation byte"
  | .endOfData => "unexpected end of data"

/-- A character that has begun: the bits read so far, the bounds of the next
byte, and how many bytes follow that one. -/
structure OpenChar where
  bits : Nat
  least : UInt8
  greatest : UInt8
  after : Nat

/-- What the first byte of a character of two to four bytes announces.  The
bounds of the second byte exclude overlong forms, surrogates and code points
beyond the last. -/
def OpenChar.ofFirst? (byte : UInt8) : Option OpenChar :=
  let bits := byte.toNat
  if 0xC2 ≤ byte ∧ byte ≤ 0xDF then some ⟨bits % 0x20, 0x80, 0xBF, 0⟩
  else if byte = 0xE0 then some ⟨bits % 0x10, 0xA0, 0xBF, 1⟩
  else if byte = 0xED then some ⟨bits % 0x10, 0x80, 0x9F, 1⟩
  else if 0xE1 ≤ byte ∧ byte ≤ 0xEF then some ⟨bits % 0x10, 0x80, 0xBF, 1⟩
  else if byte = 0xF0 then some ⟨bits % 0x08, 0x90, 0xBF, 2⟩
  else if 0xF1 ≤ byte ∧ byte ≤ 0xF3 then some ⟨bits % 0x08, 0x80, 0xBF, 2⟩
  else if byte = 0xF4 then some ⟨bits % 0x08, 0x80, 0x8F, 2⟩
  else none

/-- Decodes the remaining bytes, given the character that is open, if any, and
the characters read so far in reverse. -/
def decodeFrom : Option OpenChar → List Char → List UInt8 → Except Utf8Fault (List Char)
  | none, read, [] => .ok read.reverse
  | some _, _, [] => .error .endOfData
  | none, read, byte :: bytes =>
      if byte < 0x80 then decodeFrom none (Char.ofNat byte.toNat :: read) bytes
      else
        match OpenChar.ofFirst? byte with
        | some begun => decodeFrom (some begun) read bytes
        | none => .error .startByte
  | some begun, read, byte :: bytes =>
      if begun.least ≤ byte ∧ byte ≤ begun.greatest then
        let bits := begun.bits * 0x40 + byte.toNat % 0x40
        match begun.after with
        | 0 => decodeFrom none (Char.ofNat bits :: read) bytes
        | after + 1 => decodeFrom (some ⟨bits, 0x80, 0xBF, after⟩) read bytes
      else .error .continuationByte

def decodeUtf8 (bytes : List UInt8) : Except Utf8Fault (List Char) :=
  decodeFrom none [] bytes

end Lumen.Text
