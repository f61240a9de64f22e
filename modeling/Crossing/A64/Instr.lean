import Crossing.A64.Operand
import Crossing.Code.Buffer

/-
The ARM64 instructions that glue code is made of, their encoding as one
32-bit word each, and the short sequences that build constants.
-/
namespace Crossing.A64

open Code

/-- One instruction. Branches name their target by a label's number. -/
inductive Instr where
  -- arithmetic
  | addImm (rd rn : Reg) (imm : Imm12)
  | subImm (rd rn : Reg) (imm : Imm12)
  /-- Adds an immediate times 4096. -/
  | addImmHigh (rd rn : Reg) (imm : Imm12)
  /-- Subtracts an immediate times 4096. -/
  | subImmHigh (rd rn : Reg) (imm : Imm12)
  | and (rd rn rm : Reg)
  | orr (rd rn rm : Reg)
  /-- Sets one bit. -/
  | orrBit (rd rn : Reg) (bit : Fin 64)
  /-- Clears the low bits. -/
  | clearLow (rd rn : Reg) (bits : LowBits 64)
  /-- A 32-bit move; the upper half becomes zero. -/
  | moveW (rd rm : Reg)
  /-- Sets the 16 bits at `16 * hw` and clears the rest. -/
  | movz (rd : Reg) (imm : UInt16) (hw : UInt32)
  /-- Replaces the 16 bits at `16 * hw`. -/
  | movk (rd : Reg) (imm : UInt16) (hw : UInt32)
  | movzW (rd : Reg) (imm : UInt16) (hw : Fin 2)
  /-- Replaces the upper half of a 32-bit register. -/
  | movkWHigh (rd : Reg) (imm : UInt16)
  | sxtb (rd rn : Reg)
  | sxth (rd rn : Reg)
  | uxtb (rd rn : Reg)
  | uxth (rd rn : Reg)
  | fmovD (rd rn : VReg)
  | fmovS (rd rn : VReg)
  -- comparison
  | cmpWImm (rn : Reg) (imm : Imm12)
  | cmpW (rn rm : Reg)
  | tstW (rn rm : Reg)
  | tst (rn rm : Reg)
  | tstWBit (rn : Reg) (bit : Fin 32)
  | tstWLow (rn : Reg) (count : LowBits 32)
  | tstBit (rn : Reg) (bit : Fin 64)
  -- memory
  | stpPre (rt1 rt2 rn : Reg) (offset : PairOffset)
  | ldpPost (rt1 rt2 rn : Reg) (offset : PairOffset)
  | stp (rt1 rt2 rn : Reg) (offset : PairOffset)
  | ldp (rt1 rt2 rn : Reg) (offset : PairOffset)
  | strX (rt rn : Reg) (offset : Scaled 8)
  | ldrX (rt rn : Reg) (offset : Scaled 8)
  | strW (rt rn : Reg) (offset : Scaled 4)
  | ldrW (rt rn : Reg) (offset : Scaled 4)
  | strH (rt rn : Reg) (offset : Scaled 2)
  | ldrH (rt rn : Reg) (offset : Scaled 2)
  | strB (rt rn : Reg) (offset : Scaled 1)
  | ldrB (rt rn : Reg) (offset : Scaled 1)
  | strD (rt : VReg) (rn : Reg) (offset : Scaled 8)
  | ldrD (rt : VReg) (rn : Reg) (offset : Scaled 8)
  | strS (rt : VReg) (rn : Reg) (offset : Scaled 4)
  | ldrS (rt : VReg) (rn : Reg) (offset : Scaled 4)
  | stpD (rt1 rt2 : VReg) (rn : Reg) (offset : PairOffset)
  | ldpD (rt1 rt2 : VReg) (rn : Reg) (offset : PairOffset)
  -- atomics, all on 32 bits
  | ldaxr (rt rn : Reg)
  | stlxr (rs rt rn : Reg)
  | stxr (rs rt rn : Reg)
  | casal (rs rt rn : Reg)
  -- branches
  | b (label : Nat)
  | bCond (cond : Cond) (label : Nat)
  | cbz (rt : Reg) (is64 : Bool) (label : Nat)
  | cbnz (rt : Reg) (is64 : Bool) (label : Nat)
  | blr (rn : Reg)
  | br (rn : Reg)
  | ret
  | brk (imm : UInt16)
  /-- A word that stands for itself. -/
  | raw (word : UInt32)

-- ============================================================ encoding

/-- The fields `rn` and `rd` that most instructions share. -/
def rnRd (rn rd : UInt32) : UInt32 := (rn <<< 5) ||| rd

def Imm12.field (i : Imm12) : UInt32 := UInt32.ofNat i.value <<< 10

def Scaled.field {scale : Nat} (s : Scaled scale) : UInt32 := UInt32.ofNat s.units <<< 10

def PairOffset.field (p : PairOffset) : UInt32 := UInt32.ofNat p.units.toNat <<< 15

/-- The rotation that brings bit 0 to position `bit` of a register. -/
def rotation (width bit : Nat) : UInt32 := UInt32.ofNat ((width - bit) % width) <<< 16

namespace Instr

/-- The word of an instruction; a branch has zero in its displacement. -/
def word : Instr → UInt32
  | addImm rd rn imm => (0x91000000 : UInt32) ||| imm.field ||| rnRd rn.code rd.code
  | subImm rd rn imm => (0xD1000000 : UInt32) ||| imm.field ||| rnRd rn.code rd.code
  | addImmHigh rd rn imm => (0x91400000 : UInt32) ||| imm.field ||| rnRd rn.code rd.code
  | subImmHigh rd rn imm => (0xD1400000 : UInt32) ||| imm.field ||| rnRd rn.code rd.code
  | and rd rn rm => (0x8A000000 : UInt32) ||| (rm.code <<< 16) ||| rnRd rn.code rd.code
  | orr rd rn rm => (0xAA000000 : UInt32) ||| (rm.code <<< 16) ||| rnRd rn.code rd.code
  | orrBit rd rn bit => (0xB2400000 : UInt32) ||| rotation 64 bit ||| rnRd rn.code rd.code
  | clearLow rd rn bits =>
      (0x92400000 : UInt32) ||| rotation 64 bits.count ||| (UInt32.ofNat (63 - bits.count) <<< 10)
        ||| rnRd rn.code rd.code
  | moveW rd rm => (0x2A0003E0 : UInt32) ||| (rm.code <<< 16) ||| rd.code
  | movz rd imm hw => (0xD2800000 : UInt32) ||| (hw <<< 21) ||| (imm.toUInt32 <<< 5) ||| rd.code
  | movk rd imm hw => (0xF2800000 : UInt32) ||| (hw <<< 21) ||| (imm.toUInt32 <<< 5) ||| rd.code
  | movzW rd imm hw =>
      (0x52800000 : UInt32) ||| (UInt32.ofNat hw <<< 21) ||| (imm.toUInt32 <<< 5) ||| rd.code
  | movkWHigh rd imm => (0x72A00000 : UInt32) ||| (imm.toUInt32 <<< 5) ||| rd.code
  | sxtb rd rn => (0x93401C00 : UInt32) ||| rnRd rn.code rd.code
  | sxth rd rn => (0x93403C00 : UInt32) ||| rnRd rn.code rd.code
  | uxtb rd rn => (0x53001C00 : UInt32) ||| rnRd rn.code rd.code
  | uxth rd rn => (0x53003C00 : UInt32) ||| rnRd rn.code rd.code
  | fmovD rd rn => (0x1E604000 : UInt32) ||| rnRd rn.code rd.code
  | fmovS rd rn => (0x1E204000 : UInt32) ||| rnRd rn.code rd.code
  | cmpWImm rn imm => (0x7100001F : UInt32) ||| imm.field ||| (rn.code <<< 5)
  | cmpW rn rm => (0x6B00001F : UInt32) ||| (rm.code <<< 16) ||| (rn.code <<< 5)
  | tstW rn rm => (0x6A00001F : UInt32) ||| (rm.code <<< 16) ||| (rn.code <<< 5)
  | tst rn rm => (0xEA00001F : UInt32) ||| (rm.code <<< 16) ||| (rn.code <<< 5)
  | tstWBit rn bit => (0x7200001F : UInt32) ||| rotation 32 bit ||| (rn.code <<< 5)
  | tstWLow rn count =>
      (0x7200001F : UInt32) ||| (UInt32.ofNat (count.count - 1) <<< 10) ||| (rn.code <<< 5)
  | tstBit rn bit => (0xF240001F : UInt32) ||| rotation 64 bit ||| (rn.code <<< 5)
  | stpPre rt1 rt2 rn offset =>
      (0xA9800000 : UInt32) ||| offset.field ||| (rt2.code <<< 10) ||| rnRd rn.code rt1.code
  | ldpPost rt1 rt2 rn offset =>
      (0xA8C00000 : UInt32) ||| offset.field ||| (rt2.code <<< 10) ||| rnRd rn.code rt1.code
  | stp rt1 rt2 rn offset =>
      (0xA9000000 : UInt32) ||| offset.field ||| (rt2.code <<< 10) ||| rnRd rn.code rt1.code
  | ldp rt1 rt2 rn offset =>
      (0xA9400000 : UInt32) ||| offset.field ||| (rt2.code <<< 10) ||| rnRd rn.code rt1.code
  | strX rt rn offset => (0xF9000000 : UInt32) ||| offset.field ||| rnRd rn.code rt.code
  | ldrX rt rn offset => (0xF9400000 : UInt32) ||| offset.field ||| rnRd rn.code rt.code
  | strW rt rn offset => (0xB9000000 : UInt32) ||| offset.field ||| rnRd rn.code rt.code
  | ldrW rt rn offset => (0xB9400000 : UInt32) ||| offset.field ||| rnRd rn.code rt.code
  | strH rt rn offset => (0x79000000 : UInt32) ||| offset.field ||| rnRd rn.code rt.code
  | ldrH rt rn offset => (0x79400000 : UInt32) ||| offset.field ||| rnRd rn.code rt.code
  | strB rt rn offset => (0x39000000 : UInt32) ||| offset.field ||| rnRd rn.code rt.code
  | ldrB rt rn offset => (0x39400000 : UInt32) ||| offset.field ||| rnRd rn.code rt.code
  | strD rt rn offset => (0xFD000000 : UInt32) ||| offset.field ||| rnRd rn.code rt.code
  | ldrD rt rn offset => (0xFD400000 : UInt32) ||| offset.field ||| rnRd rn.code rt.code
  | strS rt rn offset => (0xBD000000 : UInt32) ||| offset.field ||| rnRd rn.code rt.code
  | ldrS rt rn offset => (0xBD400000 : UInt32) ||| offset.field ||| rnRd rn.code rt.code
  | stpD rt1 rt2 rn offset =>
      (0x6D000000 : UInt32) ||| offset.field ||| (rt2.code <<< 10) ||| rnRd rn.code rt1.code
  | ldpD rt1 rt2 rn offset =>
      (0x6D400000 : UInt32) ||| offset.field ||| (rt2.code <<< 10) ||| rnRd rn.code rt1.code
  | ldaxr rt rn => (0x885FFC00 : UInt32) ||| rnRd rn.code rt.code
  | stlxr rs rt rn => (0x8800FC00 : UInt32) ||| (rs.code <<< 16) ||| rnRd rn.code rt.code
  | stxr rs rt rn => (0x88007C00 : UInt32) ||| (rs.code <<< 16) ||| rnRd rn.code rt.code
  | casal rs rt rn => (0x88E0FC00 : UInt32) ||| (rs.code <<< 16) ||| rnRd rn.code rt.code
  | b _ => 0x14000000
  | bCond cond _ => (0x54000000 : UInt32) ||| UInt32.ofNat cond.code
  | cbz rt is64 _ => (if is64 then 0xB4000000 else 0x34000000) ||| rt.code
  | cbnz rt is64 _ => (if is64 then 0xB5000000 else 0x35000000) ||| rt.code
  | blr rn => (0xD63F0000 : UInt32) ||| (rn.code <<< 5)
  | br rn => (0xD61F0000 : UInt32) ||| (rn.code <<< 5)
  | ret => 0xD65F03C0
  | brk imm => (0xD4200000 : UInt32) ||| (imm.toUInt32 <<< 5)
  | raw word => word

/-- The field of a branch that holds its displacement. -/
def field : Instr → Option Fixup
  | b label => some ⟨0, label, .imm26⟩
  | bCond _ label | cbz _ _ label | cbnz _ _ label => some ⟨0, label, .imm19⟩
  | _ => none

/-- An instruction's bytes together with its branch field. -/
def encode (i : Instr) : Encoding := ⟨littleEndian 4 i.word.toNat, i.field⟩

-- =========================================================== sequences

/-- The upper and the lower twelve bits of an immediate. -/
def halves (imm : Imm24) : Imm12 × Imm12 :=
  (⟨⟨imm.value / 4096, by omega⟩⟩, ⟨⟨imm.value % 4096, by omega⟩⟩)

/-- Adds or subtracts an immediate of up to 24 bits, its upper half first.
A half that is zero is left out, unless both are. -/
def byHalves (high low : Reg → Reg → Imm12 → Instr) (rd rn : Reg) (imm : Imm24) : List Instr :=
  let (hi, lo) := halves imm
  if hi.value = 0 then [low rd rn lo]
  else if lo.value = 0 then [high rd rn hi]
  else [high rd rn hi, low rd rd lo]

/-- `rd = rn + imm` -/
def addLarge (rd rn : Reg) (imm : Imm24) : List Instr := byHalves addImmHigh addImm rd rn imm

/-- `rd = rn - imm` -/
def subLarge (rd rn : Reg) (imm : Imm24) : List Instr := byHalves subImmHigh subImm rd rn imm

/-- `rd = rm`. The stack pointer takes part only in an addition: elsewhere
its number means zero. -/
def move (rd rm : Reg) : Instr :=
  if rd = .sp ∨ rm = .sp then addImm rd rm ⟨0⟩ else orr rd .zero rm

/-- Loads a 32-bit constant. -/
def loadImm32 (rd : Reg) (value : UInt32) : List Instr :=
  let low := value.toUInt16
  let high := (value >>> 16).toUInt16
  if low = 0 ∧ high ≠ 0 then [movzW rd high 1]
  else if high = 0 then [movzW rd low 0]
  else [movzW rd low 0, movkWHigh rd high]

/-- The non-zero quarters of a constant with their places, low to high. -/
def quarters (value : UInt64) : List (UInt16 × UInt32) :=
  let all : List (UInt16 × UInt32) :=
    [(value.toUInt16, 0), ((value >>> 16).toUInt16, 1), ((value >>> 32).toUInt16, 2),
      ((value >>> 48).toUInt16, 3)]
  all.filter (·.1 ≠ 0)

/-- Loads a 64-bit constant. The first instruction clears what it does not
set, so quarters that are zero need none. -/
def loadImm64 (rd : Reg) (value : UInt64) : List Instr :=
  match quarters value with
  | [] => [movz rd 0 0]
  | (imm, hw) :: rest => movz rd imm hw :: rest.map fun (imm, hw) => movk rd imm hw

end Instr

end Crossing.A64
