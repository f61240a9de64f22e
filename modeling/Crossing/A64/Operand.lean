import Crossing.Violation

/-
Operands of ARM64 instructions. Immediates come in narrow fields with rules
of their own (multiples of the access size, counts of low bits, single
bits); each such field is a type whose values are exactly what the field
can hold, with one function that admits a number into it or refuses.
-/
namespace Crossing.A64

-- ========================================================== registers

/-- A general-purpose register, given by its encoding. Number 31 is the
stack pointer or the zero register, depending on the instruction. -/
structure Reg where
  index : Fin 32
deriving DecidableEq, Repr

-- register numbers are written as literals
instance registers_nonzero : @NeZero Nat Zero.ofOfNat0 32 := ⟨by decide⟩

namespace Reg

def x0 : Reg := ⟨0⟩
/-- The two registers that glue code may always clobber. -/
def ip0 : Reg := ⟨16⟩
def ip1 : Reg := ⟨17⟩
/-- Holds the current thread. -/
def thread : Reg := ⟨19⟩
/-- Mirrors the thread's marking flag for managed code. -/
def marking : Reg := ⟨20⟩
/-- Holds the return address. -/
def link : Reg := ⟨30⟩
def sp : Reg := ⟨31⟩
/-- Reads as zero. -/
def zero : Reg := ⟨31⟩

def code (r : Reg) : UInt32 := UInt32.ofNat r.index

end Reg

/-- A floating-point register. Numbers below 32 name one. -/
structure VReg where
  number : UInt8
deriving DecidableEq, Repr

def VReg.code (r : VReg) : UInt32 := r.number.toUInt32

/-- A condition code, given by its encoding. -/
structure Cond where
  code : Fin 16
deriving DecidableEq, Repr

namespace Cond

def eq : Cond := ⟨0⟩
def ne : Cond := ⟨1⟩

end Cond

-- ========================================================= immediates

/-- A 12-bit immediate. -/
structure Imm12 where
  value : Fin 4096
deriving DecidableEq, Repr

instance imm12_nonzero : @NeZero Nat Zero.ofOfNat0 4096 := ⟨by decide⟩

def Imm12.ofNat (n : Nat) : Except Violation Imm12 :=
  if h : n < 4096 then .ok ⟨⟨n, h⟩⟩ else .error .imm12TooLarge

/-- An unsigned byte offset that is a multiple of `scale`, held as a 12-bit
count. -/
structure Scaled (scale : Nat) where
  units : Fin 4096
deriving DecidableEq, Repr

namespace Scaled

def ofOffset (scale offset : Nat) : Except Violation (Scaled scale) :=
  if h : offset / scale < 4096 then
    if offset % scale = 0 then .ok ⟨⟨offset / scale, h⟩⟩
    else .error (.offsetNotEncodable offset scale)
  else .error (.offsetNotEncodable offset scale)

/-- The offset in bytes. -/
def offset {scale : Nat} (s : Scaled scale) : Nat := s.units.val * scale

end Scaled

/-- A signed byte offset of a register pair: a multiple of eight from -512
to 504, held as a 7-bit count. -/
structure PairOffset where
  units : BitVec 7
deriving DecidableEq, Repr

namespace PairOffset

def ofInt (offset : Int) : Except Violation PairOffset :=
  if Int.tmod offset 8 = 0 ∧ -512 ≤ offset ∧ offset ≤ 504 then
    .ok ⟨BitVec.ofInt 7 (Int.tdiv offset 8)⟩
  else .error (.pairOffsetNotEncodable offset)

/-- The offset in bytes. -/
def offset (p : PairOffset) : Int := p.units.toInt * 8

end PairOffset

/-- The number of a bit in a 64-bit register. -/
def bit64 (n : Nat) : Except Violation (Fin 64) :=
  if h : n < 64 then .ok ⟨n, h⟩ else .error .bitNotBelow64

/-- The number of a bit in a 32-bit register. -/
def bit32 (n : Nat) : Except Violation (Fin 32) :=
  if h : n < 32 then .ok ⟨n, h⟩ else .error .bitNotBelow32

/-- A count of low bits, at least one and fewer than the `width` of the
register. -/
structure LowBits (width : Nat) where
  count : Nat
  pos : 0 < count
  lt : count < width

namespace LowBits

def of64 (n : Nat) : Except Violation (LowBits 64) :=
  if h : 0 < n ∧ n < 64 then .ok ⟨n, h.1, h.2⟩ else .error .clearedBitsOutside64

def of32 (n : Nat) : Except Violation (LowBits 32) :=
  if h : 0 < n ∧ n < 32 then .ok ⟨n, h.1, h.2⟩ else .error .lowBitsOutside32

end LowBits

/-- Which half of a 32-bit register a constant goes into. -/
def half (n : Nat) : Except Violation (Fin 2) :=
  if h : n < 2 then .ok ⟨n, h⟩ else .error .halfNotBelow2

/-- A constant below 2^24, which two additions can reach. -/
structure Imm24 where
  value : Fin (2 ^ 24)
deriving DecidableEq, Repr

def Imm24.ofNat (n : Nat) : Except Violation Imm24 :=
  if h : n < 2 ^ 24 then .ok ⟨⟨n, h⟩⟩ else .error (.additionTooLarge n)

end Crossing.A64
