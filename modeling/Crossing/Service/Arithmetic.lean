import Crossing.Number.Binary
import Crossing.Service.Thrown

/-
Integer services. Quotients go toward zero and wrap where the true one does
not fit; only a zero divisor raises. Shift distances count modulo 64.
-/
namespace Crossing.Service

def ldiv (a b : Int64) : Except Thrown Int64 := if b = 0 then .error .arithmetic else .ok (a / b)

def lmod (a b : Int64) : Except Thrown Int64 := if b = 0 then .error .arithmetic else .ok (a % b)

def lmul (a b : Int64) : Int64 := a * b

/-- Quotient in the low word, remainder in the high word. -/
def idivmod (a b : Int32) : Except Thrown Int64 :=
  if b = 0 then .error .arithmetic
  else
    let low := (a / b).toUInt32.toUInt64
    let high := (a % b).toUInt32.toUInt64
    .ok ((high <<< 32) ||| low).toInt64

def shlLong (value : Int64) (distance : Nat) : Int64 := value <<< Int64.ofNat (distance % 64)

def shrLong (value : Int64) (distance : Nat) : Int64 := value >>> Int64.ofNat (distance % 64)

def ushrLong (value : Int64) (distance : Nat) : Int64 :=
  (value.toUInt64 >>> UInt64.ofNat (distance % 64)).toInt64

/-- Copies the first bytes of `src` over those of `dst`. -/
def memcpy (dst src : List UInt8) (length : Nat) : List UInt8 := src.take length ++ dst.drop length

end Crossing.Service
