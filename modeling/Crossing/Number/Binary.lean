import Crossing.Number.Power

/-
Binary floating-point numbers by their bits. A format has a sign bit, some
exponent bits and some fraction bits; a finite number is a whole number
times a power of two. Everything here is exact: remainders, neighbours and
conversions to integers need no rounding.
-/
namespace Crossing.Number

/-- A floating-point format. -/
structure BinaryFormat where
  exponentBits : Nat
  fractionBits : Nat
deriving DecidableEq, Repr

namespace BinaryFormat

def double : BinaryFormat := ⟨11, 52⟩

def single : BinaryFormat := ⟨8, 23⟩

/-- The sign bit. -/
def signBit (f : BinaryFormat) : Nat := 2 ^ (f.exponentBits + f.fractionBits)

/-- The exponent of the last bit of the smallest numbers. -/
def leastExponent (f : BinaryFormat) : Int := 2 - 2 ^ (f.exponentBits - 1) - f.fractionBits

/-- The bits of infinity without its sign. -/
def infinity (f : BinaryFormat) : Nat := (2 ^ f.exponentBits - 1) * 2 ^ f.fractionBits

/-- The bits of a number without its sign. -/
def magnitude (f : BinaryFormat) (bits : Nat) : Nat := bits % f.signBit

def isNegative (f : BinaryFormat) (bits : Nat) : Bool := f.signBit ≤ bits

def isNan (f : BinaryFormat) (bits : Nat) : Bool := f.infinity < f.magnitude bits

def isInfinite (f : BinaryFormat) (bits : Nat) : Bool := f.magnitude bits = f.infinity

/-- Whether the bits are no number and ask for attention: the first bit of
the fraction is clear. -/
def isSignalling (f : BinaryFormat) (bits : Nat) : Bool :=
  f.isNan bits && f.magnitude bits < f.infinity + 2 ^ (f.fractionBits - 1)

/-- A bit pattern that is not a number. -/
def nan (f : BinaryFormat) : Nat := f.infinity + 2 ^ (f.fractionBits - 1)

/-- A finite magnitude in units of the smallest number: a whole number and
the power of two it is scaled by. -/
def scaled (f : BinaryFormat) (bits : Nat) : Nat × Nat :=
  let m := f.magnitude bits
  let e := m / 2 ^ f.fractionBits
  let fraction := m % 2 ^ f.fractionBits
  if e = 0 then (fraction, 0) else (2 ^ f.fractionBits + fraction, e - 1)

/-- A finite magnitude in units of the smallest number. -/
def units (f : BinaryFormat) (bits : Nat) : Nat :=
  let (m, e) := f.scaled bits
  m * 2 ^ e

/-- The bits of a magnitude that the format can hold exactly. -/
def ofUnits (f : BinaryFormat) (n : Nat) : Nat :=
  let e := n.log2 - f.fractionBits
  n / 2 ^ e + e * 2 ^ f.fractionBits

/-- Puts a sign on a magnitude. -/
def withSign (f : BinaryFormat) (negative : Bool) (magnitude : Nat) : Nat :=
  if negative then f.signBit + magnitude else magnitude

/-- Position of a number in the order of all numbers; the two zeros share
one. -/
def rank (f : BinaryFormat) (bits : Nat) : Int :=
  if f.isNegative bits then -(f.magnitude bits : Int) else f.magnitude bits

/-- The remainder of a division that goes toward zero; it has the sign of
the dividend. -/
def remainder (f : BinaryFormat) (a b : Nat) : Nat :=
  if f.isNan a || f.isNan b || f.isInfinite a || f.magnitude b = 0 then f.nan
  else if f.isInfinite b then a
  else f.withSign (f.isNegative a) (f.ofUnits (f.units a % f.units b))

/-- The number next to `x` on the way to `y`. -/
def neighbour (f : BinaryFormat) (x y : Nat) : Nat :=
  if f.isNan x || f.isNan y then f.nan
  else if f.rank x = f.rank y then y
  else if f.rank x = 0 then f.withSign (f.rank y < 0) 1
  else if f.rank x < f.rank y ↔ 0 < f.rank x then x + 1
  else x - 1

/-- The whole part as a 64-bit integer; out of range it is the nearest one,
and no number is zero. -/
def toLong (f : BinaryFormat) (bits : Nat) : Int :=
  if f.isNan bits then 0
  else
    let whole : Int :=
      if f.isInfinite bits then 2 ^ 63
      else f.units bits / 2 ^ (-f.leastExponent).toNat
    if f.isNegative bits then max (-whole) (-2 ^ 63) else min whole (2 ^ 63 - 1)

end BinaryFormat

end Crossing.Number
