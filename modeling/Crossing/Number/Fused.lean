import Crossing.Number.Binary
import Crossing.Number.Rounding

/-
A product and a sum with a single rounding. The exact value is a whole
number of the units that products of the smallest numbers have; it is
rounded to a number of the format only at the end. Reductions and
polynomials that cancel most of their digits keep the others this way.
-/
namespace Crossing.Number

namespace BinaryFormat

/-- A finite number in units of the smallest one, with its sign. -/
def signedUnits (f : BinaryFormat) (bits : Nat) : Int :=
  if f.isNegative bits then -(f.units bits : Int) else f.units bits

/-- The bits of the magnitude nearest to `n / 2 ^ down` units, a half going
to the even one. What is too large for the format becomes infinity. -/
def nearest (f : BinaryFormat) (n down : Nat) : Nat :=
  let drop := max (n.log2 - f.fractionBits) down
  min f.infinity (f.ofUnits (roundHalfEven n (2 ^ drop) * 2 ^ (drop - down)))

end BinaryFormat

/-- `x * y + z`, rounded once. A sum of zero is exact with two roundings
too, and takes its sign from them. -/
def mulAdd (x y z : Float) : Float :=
  if x.isFinite && y.isFinite && z.isFinite then
    let f := BinaryFormat.double
    let units (v : Float) : Int := f.signedUnits v.toBits.toNat
    let down := (-f.leastExponent).toNat
    let sum := units x * units y + units z * 2 ^ down
    if sum = 0 then x * y + z
    else .ofBits (.ofNat (f.withSign (sum < 0) (f.nearest sum.natAbs down)))
  else x * y + z

end Crossing.Number
