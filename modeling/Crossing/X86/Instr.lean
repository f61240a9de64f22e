import Crossing.Code.Buffer
import Crossing.X86.Operand

/-
The x86-64 instructions that glue code is made of, and their encoding.

An instruction is encoded as

    [gs] [operand prefix] [REX] opcode ModRM [SIB] [displacement] [immediate]

and each part is a function of its own below, so that a reader of the bytes
can take them apart again in the same order.
-/
namespace Crossing.X86

open Code

/-- Width of an integer operand. -/
inductive Width where
  | byte
  | word
  | long
  | quad
deriving DecidableEq, Repr

/-- Width of a floating-point scalar. -/
inductive Scalar where
  | single
  | double
deriving DecidableEq, Repr

/-- Operations of a 64-bit register with an immediate. -/
inductive Arith where
  | add
  | or
  | and
  | sub
deriving DecidableEq, Repr

/-- One instruction. Branches name their target by a label's number. -/
inductive Instr where
  | push (reg : Reg)
  | pop (reg : Reg)
  /-- A 64-bit move between registers. -/
  | moveQuad (dst src : Reg)
  /-- A 32-bit move between registers; the upper half becomes zero. -/
  | moveLong (dst src : Reg)
  /-- A load; bytes and words are zero-extended to 32 bits. -/
  | load (width : Width) (dst : Reg) (mem : Mem)
  | store (width : Width) (mem : Mem) (src : Reg)
  /-- Stores a sign-extended immediate as 64 bits. -/
  | storeImm (mem : Mem) (imm : Int32)
  /-- Loads a constant, in the shortest form that gives all 64 bits. -/
  | loadImm (dst : Reg) (imm : UInt64)
  | lea (dst : Reg) (mem : Mem)
  /-- Sign extension of a byte to 64 bits. -/
  | signExtendByte (dst src : Reg)
  /-- Sign extension of 16 bits to 64 bits. -/
  | signExtendWord (dst src : Reg)
  /-- Zero extension of a byte to 32 bits. -/
  | zeroExtendByte (dst src : Reg)
  /-- Zero extension of 16 bits to 32 bits. -/
  | zeroExtendWord (dst src : Reg)
  | loadScalar (scalar : Scalar) (dst : Xmm) (mem : Mem)
  | storeScalar (scalar : Scalar) (mem : Mem) (src : Xmm)
  | moveXmm (dst src : Xmm)
  | arith (op : Arith) (dst : Reg) (imm : Int32)
  /-- 32-bit exclusive or. -/
  | xor (dst src : Reg)
  | testReg (a b : Reg)
  | testImm (reg : Reg) (imm : UInt32)
  | testMemImm (mem : Mem) (imm : UInt32)
  | testMem (reg : Reg) (mem : Mem)
  /-- Compares 32 bits of memory with an immediate. -/
  | compareLong (mem : Mem) (imm : Int32)
  /-- Compares a byte of memory with an immediate. -/
  | compareByte (mem : Mem) (imm : UInt8)
  /-- Compares 32 bits of memory with EAX and, if equal, stores `src`, all
  in one locked step. -/
  | lockCompareExchange (mem : Mem) (src : Reg)
  | jump (label : Nat)
  | jumpIf (cond : Cond) (label : Nat)
  | jumpMem (mem : Mem)
  | callMem (mem : Mem)
  | ret
  | breakpoint
deriving DecidableEq, Repr

-- ===================================================== operand encoding

/-- The operand of a ModRM byte's `r/m` field. -/
inductive RegMem where
  | reg (number : UInt8)
  | mem (mem : Mem)
deriving DecidableEq, Repr

/-- The ModRM byte. -/
def modRM (mode reg rm : UInt8) : UInt8 :=
  ((mode &&& 3) <<< 6) ||| ((reg &&& 7) <<< 3) ||| (rm &&& 7)

/-- A displacement that one signed byte holds. -/
def isShort (v : Int32) : Bool := -128 ≤ v.toInt && v.toInt ≤ 127

/-- The low byte of a short value. -/
def shortByte (v : Int32) : UInt8 := UInt8.ofNat v.toUInt32.toNat

/-- The mode of `[base + disp]`: without displacement, with one byte, or
with four. Base code 5 without a displacement means something else, so it
takes a zero byte. -/
def baseMode (base : Reg) (disp : Int32) : UInt8 :=
  if disp = 0 ∧ base.code ≠ 5 then 0
  else if isShort disp then 1
  else 2

/-- The bytes of a displacement under a mode. -/
def displacementBytes (mode : UInt8) (disp : Int32) : List UInt8 :=
  if mode = 1 then [shortByte disp]
  else if mode = 2 then littleEndian 4 disp.toUInt32.toNat
  else []

/-- ModRM, SIB and displacement. Base code 4 announces a SIB byte, so a
base with that code is named through one. -/
def operandBytes (reg : UInt8) : RegMem → List UInt8
  | .reg r => [modRM 3 reg r]
  | .mem (.gs address) => modRM 0 reg 4 :: 0x25 :: littleEndian 4 address.toNat
  | .mem (.base base disp) =>
      let mode := baseMode base disp
      modRM mode reg base.code
        :: ((if base.code = 4 then [0x24] else []) ++ displacementBytes mode disp)

/-- The segment override of an operand. -/
def segmentBytes : RegMem → List UInt8
  | .mem (.gs _) => [0x65]
  | _ => []

/-- The bit of the REX byte that extends the `r/m` field. -/
def rexB : RegMem → UInt8
  | .reg r => if 8 ≤ r then 1 else 0
  | .mem (.base base _) => if base.isExtended then 1 else 0
  | .mem (.gs _) => 0

/-- The REX byte of an instruction, needed or not. -/
def rexByte (wide : Bool) (reg : UInt8) (rm : RegMem) : UInt8 :=
  0x40 ||| (if wide then 8 else 0) ||| (if 8 ≤ reg then 4 else 0) ||| rexB rm

/-- Codes 4 to 7 name the low bytes of four registers only under a REX
byte; without one they name the second bytes of the first four. -/
def isLowByte (r : UInt8) : Bool := 4 ≤ r && r < 8

/-- Whether a byte operand makes the REX byte necessary. -/
def needsByteRex (reg : UInt8) : RegMem → Bool
  | .reg r => isLowByte reg || isLowByte r
  | .mem _ => isLowByte reg

/-- The REX byte, left out when it says nothing. -/
def rexBytes (wide byteRegs : Bool) (reg : UInt8) (rm : RegMem) : List UInt8 :=
  let rex := rexByte wide reg rm
  if rex ≠ 0x40 || (byteRegs && needsByteRex reg rm) then [rex] else []

/-- The fixed parts of an opcode. -/
structure Opcode where
  bytes : List UInt8
  /-- A prefix that belongs to the operation and stands before REX. -/
  leading : List UInt8 := []
  /-- Whether the operation works on 64 bits. -/
  wide : Bool := false
  /-- Whether its register operands are bytes. -/
  byteRegs : Bool := false
deriving DecidableEq, Repr

/-- An instruction with a ModRM byte, up to its immediate. `reg` is the
register operand or the opcode's extension. -/
def Opcode.encode (op : Opcode) (reg : UInt8) (rm : RegMem) : List UInt8 :=
  segmentBytes rm ++ op.leading ++ rexBytes op.wide op.byteRegs reg rm ++ op.bytes
    ++ operandBytes reg rm

/-- An instruction that holds its register in the opcode byte. -/
def shortForm (opcode : UInt8) (reg : Reg) : List UInt8 :=
  (if reg.isExtended then [0x41] else []) ++ [opcode + reg.code]

/-- The opcode extension of an operation with an immediate. -/
def Arith.extension : Arith → UInt8
  | add => 0
  | or => 1
  | and => 4
  | sub => 5

/-- The opcode with a byte or a four-byte immediate, whichever is enough. -/
def immediateForm (wide : Bool) (extension : UInt8) (rm : RegMem) (imm : Int32) : List UInt8 :=
  if isShort imm then
    Opcode.encode { bytes := [0x83], wide } extension rm ++ [shortByte imm]
  else
    Opcode.encode { bytes := [0x81], wide } extension rm ++ littleEndian 4 imm.toUInt32.toNat

-- ========================================================== instructions

namespace Instr

/-- The opcode of a load of this width. -/
def loadOpcode : Width → Opcode
  | .byte => { bytes := [0x0F, 0xB6] }
  | .word => { bytes := [0x0F, 0xB7] }
  | .long => { bytes := [0x8B] }
  | .quad => { bytes := [0x8B], wide := true }

/-- The opcode of a store of this width. -/
def storeOpcode : Width → Opcode
  | .byte => { bytes := [0x88], byteRegs := true }
  | .word => { bytes := [0x89], leading := [0x66] }
  | .long => { bytes := [0x89] }
  | .quad => { bytes := [0x89], wide := true }

/-- The byte that chooses the width of an SSE scalar move. -/
def scalarByte : Scalar → UInt8
  | .single => 0xF3
  | .double => 0xF2

/-- The bytes of an instruction that is not a branch to a label. A locked
operation on the thread has its segment override before the lock. -/
def bytes : Instr → List UInt8
  | push reg => shortForm 0x50 reg
  | pop reg => shortForm 0x58 reg
  | moveQuad dst src => Opcode.encode { bytes := [0x89], wide := true } src.number (.reg dst.number)
  | moveLong dst src => Opcode.encode { bytes := [0x89] } src.number (.reg dst.number)
  | load width dst mem => (loadOpcode width).encode dst.number (.mem mem)
  | store width mem src => (storeOpcode width).encode src.number (.mem mem)
  | storeImm mem imm =>
      Opcode.encode { bytes := [0xC7], wide := true } 0 (.mem mem)
        ++ littleEndian 4 imm.toUInt32.toNat
  | loadImm dst imm =>
      if imm ≤ 0xFFFFFFFF then shortForm 0xB8 dst ++ littleEndian 4 imm.toNat
      else
        [0x48 ||| (if dst.isExtended then 1 else 0), 0xB8 + dst.code]
          ++ littleEndian 8 imm.toNat
  | lea dst mem => Opcode.encode { bytes := [0x8D], wide := true } dst.number (.mem mem)
  | signExtendByte dst src =>
      Opcode.encode { bytes := [0x0F, 0xBE], wide := true, byteRegs := true } dst.number
        (.reg src.number)
  | signExtendWord dst src =>
      Opcode.encode { bytes := [0x0F, 0xBF], wide := true } dst.number (.reg src.number)
  | zeroExtendByte dst src =>
      Opcode.encode { bytes := [0x0F, 0xB6], byteRegs := true } dst.number (.reg src.number)
  | zeroExtendWord dst src =>
      Opcode.encode { bytes := [0x0F, 0xB7] } dst.number (.reg src.number)
  | loadScalar scalar dst mem =>
      Opcode.encode { bytes := [0x0F, 0x10], leading := [scalarByte scalar] } dst.number (.mem mem)
  | storeScalar scalar mem src =>
      Opcode.encode { bytes := [0x0F, 0x11], leading := [scalarByte scalar] } src.number (.mem mem)
  | moveXmm dst src => Opcode.encode { bytes := [0x0F, 0x28] } dst.number (.reg src.number)
  | arith op dst imm => immediateForm true op.extension (.reg dst.number) imm
  | xor dst src => Opcode.encode { bytes := [0x31] } src.number (.reg dst.number)
  | testReg a b => Opcode.encode { bytes := [0x85] } b.number (.reg a.number)
  | testImm reg imm =>
      Opcode.encode { bytes := [0xF7] } 0 (.reg reg.number) ++ littleEndian 4 imm.toNat
  | testMemImm mem imm =>
      Opcode.encode { bytes := [0xF7] } 0 (.mem mem) ++ littleEndian 4 imm.toNat
  | testMem reg mem => Opcode.encode { bytes := [0x85] } reg.number (.mem mem)
  | compareLong mem imm => immediateForm false 7 (.mem mem) imm
  | compareByte mem imm => Opcode.encode { bytes := [0x80] } 7 (.mem mem) ++ [imm]
  | lockCompareExchange mem src =>
      let rm := RegMem.mem mem
      segmentBytes rm ++ [0xF0] ++ rexBytes false false src.number rm ++ [0x0F, 0xB1]
        ++ operandBytes src.number rm
  | jump _ => [0xE9, 0, 0, 0, 0]
  | jumpIf cond _ => [0x0F, 0x80 + UInt8.ofNat cond.code, 0, 0, 0, 0]
  | jumpMem mem => Opcode.encode { bytes := [0xFF] } 4 (.mem mem)
  | callMem mem => Opcode.encode { bytes := [0xFF] } 2 (.mem mem)
  | ret => [0xC3]
  | breakpoint => [0xCC]

/-- The field of a branch that holds its displacement. -/
def field : Instr → Option Fixup
  | jump label => some ⟨1, label, .rel32⟩
  | jumpIf _ label => some ⟨2, label, .rel32⟩
  | _ => none

/-- An instruction's bytes together with its branch field. -/
def encode (i : Instr) : Encoding := ⟨i.bytes, i.field⟩

end Instr

end Crossing.X86
