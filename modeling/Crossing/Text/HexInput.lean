import Crossing.Text.Blank

/-
Byte strings as people type them: pairs of hexadecimal digits with blanks
anywhere. Pairs are counted in bytes of the text, so a character outside
ASCII can be split by a pair; such a text is not merely wrong but
unreadable. A plus sign may stand in for a leading zero.
-/
namespace Crossing.Text

/-- Why a text is no byte string. -/
inductive HexError where
  | oddDigits (input : String)
  | invalidPair (pair : String)
  /-- A pair ends inside a character. -/
  | splitCharacter
deriving DecidableEq, Repr

namespace HexError

def message : HexError → String
  | oddDigits input => s!"odd number of hex digits in '{input}'"
  | invalidPair pair => s!"invalid hex byte '{pair}'"
  | splitCharacter => "a hex byte ends inside a character"

end HexError

def hexDigit? (c : Char) : Option Nat :=
  if c.isDigit then some (c.toNat - 48)
  else if 'a' ≤ c ∧ c ≤ 'f' then some (c.toNat - 87)
  else if 'A' ≤ c ∧ c ≤ 'F' then some (c.toNat - 55)
  else none

/-- The byte that a pair of characters stands for. -/
def pairByte? (a b : Char) : Option UInt8 := do
  let high ← if a = '+' then some 0 else hexDigit? a
  let low ← hexDigit? b
  return UInt8.ofNat (16 * high + low)

/-- Bytes of a character in a text. -/
def width (c : Char) : Nat := c.utf8Size

/-- The bytes of digits without blanks. -/
def hexPairs : List Char → Except HexError (List UInt8)
  | [] => .ok []
  | a :: rest =>
      if width a = 2 then .error (.invalidPair (String.singleton a))
      else if width a ≠ 1 then .error .splitCharacter
      else
        match rest with
        | [] => .error .splitCharacter
        | b :: rest =>
            if width b ≠ 1 then .error .splitCharacter
            else
              match pairByte? a b with
              | none => .error (.invalidPair (String.ofList [a, b]))
              | some byte => (hexPairs rest).map (byte :: ·)

/-- Reads a byte string. -/
def readHex (s : String) : Except HexError (List UInt8) :=
  let digits := s.toList.filter (!isBlank ·)
  if (digits.map width).foldr (· + ·) 0 % 2 ≠ 0 then .error (.oddDigits s) else hexPairs digits

end Crossing.Text
