/-
Numbers as text in base sixteen: the digits, words with their mark, bytes
in pairs.
-/
namespace Crossing.Text

/-- The digits of `n` in base sixteen, at least `width` of them. -/
def hexDigits (width n : Nat) : String :=
  let ds := Nat.toDigits 16 n
  String.ofList (List.replicate (width - ds.length) '0' ++ ds)

/-- A word, marked as hexadecimal. -/
def hexWord (n : Nat) : String := "0x" ++ hexDigits 1 n

/-- A byte string, two digits a byte. -/
def hexBytes (bytes : List UInt8) : String :=
  bytes.foldl (fun s b => s ++ hexDigits 2 b.toNat) ""

end Crossing.Text
