/-
Rounding to the nearest whole number. Decimal text and binary results round
by this one rule.
-/
namespace Crossing.Number

/-- A quotient rounded to the nearest whole number, a half to the even
one. -/
def roundHalfEven (num den : Nat) : Nat :=
  let q := num / den
  let r := num % den
  if 2 * r < den then q
  else if den < 2 * r then q + 1
  else q + q % 2

end Crossing.Number
