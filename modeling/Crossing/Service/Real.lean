import Crossing.Number.Fused

/-
Services on real numbers, given and returned as the bits of
double-precision numbers. Most elementary functions are those of the
machine. Two that it lacks are built here: the exponential less one, by
reduction to a small argument and a quotient of short polynomials, and the
length of a vector, by a square root and one correction.
-/
namespace Crossing.Service

open Number

-- =============================================== exponential less one

/-- The leading bits of `ln 2`, few enough that a product with a small
whole number is exact. -/
def ln2High : Float := .ofBits 0x3fe62e42fee00000

/-- What `ln2High` leaves of `ln 2`. -/
def ln2Low : Float := .ofBits 0x3dea39ef35793c76

/-- `1 / ln 2`. -/
def ln2Inverse : Float := .ofBits 0x3ff71547652b82fe

/-- A number written as `k * ln 2 + (rest + low)`, where `rest` is at most
about half of `ln 2` and `low` is what rounding `rest` has lost. -/
structure Reduced where
  k : Int
  rest : Float
  low : Float

/-- Reduces an argument. Below half of `ln 2` nothing is taken off, and up
to one and a half times `ln 2` it is taken off once. -/
def reduce (x : Float) : Reduced :=
  let size := x.abs
  if size < .ofBits 0x3fd62e4300000000 then ⟨0, x, 0⟩
  else if size < .ofBits 0x3ff0a2b200000000 then
    let (k, whole, low) :=
      if x < 0 then (-1, x + ln2High, -ln2Low) else (1, x - ln2High, ln2Low)
    let rest := whole - low
    ⟨k, rest, (whole - rest) - low⟩
  else
    let k := (mulAdd ln2Inverse x (if x < 0 then -0.5 else 0.5)).toInt64.toInt
    let t := Float.ofInt k
    let whole := mulAdd (-t) ln2High x
    let rest := mulAdd (-t) ln2Low whole
    ⟨k, rest, mulAdd (-t) ln2Low (whole - rest)⟩

/-- For a small `r`, half of its square `s` and a number `e` such that
`exp r - 1` is `r + s - r * e`. The quotient is taken of polynomials in
`s`, in which `exp` is nearly even. -/
def expTerms (r : Float) : Float × Float :=
  let half := 0.5 * r
  let s := r * half
  let s2 := s * s
  let s4 := s2 * s2
  let p0 := mulAdd s (-3.33333333333331316428e-02) 1
  let p2 := mulAdd s (-7.93650757867487942473e-05) 1.58730158725481460165e-03
  let p4 := mulAdd s (-2.01099218183624371326e-07) 4.00821782732936239552e-06
  let p := mulAdd s4 p4 (mulAdd s2 p2 p0)
  let t := mulAdd (-p) half 3
  (s, s * ((p - t) / mulAdd (-r) t 6))

/-- `exp x - 1` from the reduced argument. With `d` for what has to be
taken from `r` to get `exp r - 1`, the result is `2 ^ k * (1 + r - d) - 1`;
the order of the sum follows the size of `2 ^ k`. -/
def Reduced.expm1 : Reduced → Float
  | ⟨k, r, low⟩ =>
    let (s, e) := expTerms r
    if k = 0 then r - mulAdd r e (-s)
    else
      let d := mulAdd r (e - low) (-low) - s
      if k = -1 then 0.5 * (r - d) - 0.5
      else if k = 1 then
        if r < -0.25 then -2 * (d - (r + 0.5)) else 1 + 2 * (r - d)
      else if k < 0 ∨ 56 < k then (1 - (d - r)).scaleB k - 1
      else
        let unit := (1 : Float).scaleB (-k)
        if k < 20 then ((1 - unit) - (d - r)).scaleB k
        else ((r - (d + unit)) + 1).scaleB k

/-- `exp x - 1`, without loss near zero. It is `x` itself for the smallest
numbers, `-1` below about `-56 * ln 2`, and infinite from the largest
exponent on. -/
def expm1 (x : Float) : Float :=
  if x.isNaN then x
  else if 7.09782712893383973096e+02 < x then 1 / 0
  else if x ≤ -(.ofBits 0x4043687a00000000) then -1
  else if x.abs < .ofBits 0x3c90000000000000 then x
  else (reduce x).expm1

-- ================================================= length of a vector

/-- The length of a vector whose longer side comes first and whose sides
have squares that neither overflow nor vanish. The excess of the squared
root over the sum of squares is put together from small differences and
taken off, as one step of a square-root iteration. -/
def correctedLength (long short : Float) : Float :=
  let h := (long * long + short * short).sqrt
  let excess :=
    if h ≤ 2 * short then
      let d := h - short
      long * (2 * d - long) + (d - 2 * (long - short)) * d
    else
      let d := h - long
      2 * d * (long - 2 * short) + ((4 * d - short) * short + d * d)
  h - excess / (2 * h)

/-- The length of a vector. Very long and very short ones are scaled by a
power of two, and a side that cannot change the other is only added. -/
def hypot (x y : Float) : Float :=
  if x.isInf || y.isInf then 1 / 0
  else if x.isNaN || y.isNaN then x + y
  else
    let (long, short) := if x.abs < y.abs then (y.abs, x.abs) else (x.abs, y.abs)
    let scale := (1 : Float).scaleB 600
    if long > (1 : Float).scaleB 511 then
      if short ≤ long.scaleB (-54) then long + short
      else correctedLength (long / scale) (short / scale) * scale
    else if short < (1 : Float).scaleB (-459) then
      if short.scaleB 54 ≤ long then long + short
      else correctedLength (long * scale) (short * scale) / scale
    else if short ≤ long.scaleB (-54) then long + short
    else correctedLength long short

-- =========================================================== by name

/-- A function on bits from one on numbers. -/
def onBits (f : Float → Float) (x : Nat) : Nat := (f (.ofBits (.ofNat x))).toBits.toNat

/-- A function on bits from one on two numbers. Some functions have a value
where one argument is no number; a signalling one leaves none. -/
def onBits₂ (f : Float → Float → Float) (x y : Nat) : Nat :=
  let double := BinaryFormat.double
  if double.isSignalling x || double.isSignalling y then double.nan
  else (f (.ofBits (.ofNat x)) (.ofBits (.ofNat y))).toBits.toNat

/-- The function of one argument with a name. -/
def unary? (name : String) : Option (Nat → Nat) :=
  ([("cos", Float.cos), ("sin", Float.sin), ("acos", Float.acos), ("asin", Float.asin),
    ("atan", Float.atan), ("cbrt", Float.cbrt), ("cosh", Float.cosh), ("exp", Float.exp),
    ("expm1", expm1), ("log", Float.log), ("log10", Float.log10), ("sinh", Float.sinh),
    ("tan", Float.tan), ("tanh", Float.tanh)].lookup name).map onBits

/-- The function of two arguments with a name. -/
def binary? (name : String) : Option (Nat → Nat → Nat) :=
  ([("atan2", Float.atan2), ("pow", Float.pow), ("hypot", hypot)].lookup name).map onBits₂

end Crossing.Service
