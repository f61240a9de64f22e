/-
Operands of x86-64 instructions: general-purpose and SSE registers,
condition codes and the two addressing forms the glue code uses.
-/
namespace Crossing.X86

/-- A 64-bit general-purpose register, given by its encoding. -/
structure Reg where
  index : Fin 16
deriving DecidableEq, Repr

-- register numbers are written as literals
instance registers_nonzero : @NeZero Nat Zero.ofOfNat0 16 := ⟨by decide⟩

namespace Reg

def rax : Reg := ⟨0⟩
def rcx : Reg := ⟨1⟩
def rdx : Reg := ⟨2⟩
def rbx : Reg := ⟨3⟩
def rsp : Reg := ⟨4⟩
def rbp : Reg := ⟨5⟩
def rsi : Reg := ⟨6⟩
def rdi : Reg := ⟨7⟩
def r8 : Reg := ⟨8⟩
def r9 : Reg := ⟨9⟩
def r10 : Reg := ⟨10⟩
def r11 : Reg := ⟨11⟩
def r12 : Reg := ⟨12⟩
def r13 : Reg := ⟨13⟩
def r14 : Reg := ⟨14⟩
def r15 : Reg := ⟨15⟩

/-- All four bits of the encoding. -/
def number (r : Reg) : UInt8 := UInt8.ofNat r.index

/-- The low three bits, which is what an instruction field holds. -/
def code (r : Reg) : UInt8 := r.number &&& 7

/-- Whether the fourth bit is set, which then goes into the REX byte. -/
def isExtended (r : Reg) : Bool := 8 ≤ r.index.val

end Reg

/-- An SSE register. Numbers below 16 name one; the encoding of a larger
number keeps its low three bits and is marked as extended. -/
structure Xmm where
  number : UInt8
deriving DecidableEq, Repr

/-- A condition code, given by its encoding. -/
structure Cond where
  code : Fin 16
deriving DecidableEq, Repr

namespace Cond

def zero : Cond := ⟨4⟩
def notZero : Cond := ⟨5⟩

end Cond

/-- A memory operand. -/
inductive Mem where
  /-- `[base + disp]` -/
  | base (base : Reg) (disp : Int32)
  /-- `gs:[address]`, which is how the current thread is reached. -/
  | gs (address : UInt32)
deriving DecidableEq, Repr

end Crossing.X86
