import Crossing.Number.Binary
import Crossing.Number.Rounding

/-
Floating-point numbers as decimal text with a fixed number of digits: one
digit, a point, the others, and a power of ten. The exact value is rounded
once, a half going to the even neighbour.
-/
namespace Crossing.Number

/-- The largest power of ten, below `limit`, that is not above a quotient
of at least one. -/
def tensBelow (num den : Nat) (limit : Nat) : Nat :=
  (List.range limit).reverse.find? (fun k => den * 10 ^ k ≤ num) |>.getD 0

/-- The exponent of the first decimal digit of a positive quotient: how
often ten goes into it, or how often it takes ten to reach one. `limit`
bounds the search. -/
def decimalExponent (num den limit : Nat) : Int :=
  if den ≤ num then tensBelow num den limit
  else
    match (List.range limit).find? fun k => den ≤ num * 10 ^ (k + 1) with
    | some k => -(k + 1 : Int)
    | none => 0

/-- A positive quotient times a power of ten, as a quotient. -/
def timesTen (num den : Nat) : Int → Nat × Nat
  | .ofNat k => (num * 10 ^ k, den)
  | .negSucc k => (num, den * 10 ^ (k + 1))

/-- Digits and exponent of a positive quotient, `places` digits behind the
point. -/
def scientific (num den places limit : Nat) : Nat × Int :=
  let e := decimalExponent num den limit
  let (n, d) := timesTen num den (places - e)
  let digits := roundHalfEven n d
  if digits = 10 ^ (places + 1) then (10 ^ places, e + 1) else (digits, e)

/-- One digit, a point, the others, and the exponent. -/
def shownScientific (places digits : Nat) (e : Int) : String :=
  let ds := Nat.toDigits 10 digits
  let ds := List.replicate (places + 1 - ds.length) '0' ++ ds
  String.ofList (ds.take 1 ++ '.' :: ds.drop 1) ++ "e" ++ toString e

/-- A bound on the decimal exponents of double-precision numbers. -/
def doubleExponentLimit : Nat := 330

/-- A double-precision number with `places` digits behind the point. -/
def showDouble (places bits : Nat) : String :=
  let f := BinaryFormat.double
  let sign := if f.isNegative bits then "-" else ""
  if f.isNan bits then "nan"
  else if f.isInfinite bits then sign ++ "inf"
  else if f.magnitude bits = 0 then sign ++ shownScientific places 0 0
  else
    let (digits, e) := scientific (f.units bits) (2 ^ (-f.leastExponent).toNat) places
      doubleExponentLimit
    sign ++ shownScientific places digits e

end Crossing.Number
