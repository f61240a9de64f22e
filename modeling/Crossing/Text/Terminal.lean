import Crossing.Text.Digits

/-
Text that is safe to show. Messages repeat what the user has typed, and
some control characters would steer the terminal they are shown on; these
are spelled out instead. Tabulators and line breaks do no harm and stay.
-/
namespace Crossing.Text

/-- The control characters of seven bits that steer a terminal: bell,
backspace, form feed, escape and delete. -/
def steering : List Char := ['\x07', '\x08', '\x0c', '\x1b', '\x7f']

/-- One character as it is shown. Those of the second range of control
characters are given by their code point. -/
def shownChar (c : Char) : String :=
  if steering.contains c then "\\x" ++ hexDigits 2 c.toNat
  else if 0x80 ≤ c.toNat && c.toNat ≤ 0x9f then "\\u\x7b" ++ hexDigits 1 c.toNat ++ "\x7d"
  else c.toString

/-- A text as it is shown on a terminal. -/
def shownOnTerminal (s : String) : String := String.join (s.toList.map shownChar)

end Crossing.Text
