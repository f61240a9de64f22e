import Crossing.Proofs.X86.Encoding
import Crossing.Proofs.X86.Operation

/-
What the encoder emits says what the instruction means. `Instr.Names` is
the meaning of an instruction in the architecture's terms: an operation with
its width, its registers, its address and its immediate.
`Instr.disassemble_bytes` reads it back from the encoded bytes, whatever
follows them.

Most of the file is about one operand at a time: a register from a field of
three bits and a bit of the REX byte, an address from ModRM, SIB and
displacement, an immediate from its bytes.
-/
namespace Crossing.X86

open Code Format

-- ============================================================= meaning

/-- The address of a memory operand. What is reached through `gs` has a
displacement of 32 bits and neither base nor index. -/
def Mem.address : Mem → Address
  | base b disp => ⟨none, .reg b, none, disp⟩
  | gs address => ⟨some .gs, .none, none, address.toInt32⟩

def Arith.mnemonic : Arith → Mnemonic
  | add => .add
  | or => .or
  | and => .and
  | sub => .sub

/-- The SSE registers of an instruction. -/
def Instr.xmms : Instr → List Xmm
  | loadScalar _ dst _ => [dst]
  | storeScalar _ _ src => [src]
  | moveXmm dst src => [dst, src]
  | _ => []

/-- The operation that an instruction names, destination first. Immediates
are words of the operation's width, extended from the instruction's operand
with its sign where it has one. A constant may be loaded in more than one
way; the distance of a branch is zero until its label is bound. -/
def Instr.Names : Instr → Operation → Prop
  | push reg, op => op = ⟨.push, [.reg .quad reg], false⟩
  | pop reg, op => op = ⟨.pop, [.reg .quad reg], false⟩
  | moveQuad dst src, op => op = ⟨.mov, [.reg .quad dst, .reg .quad src], false⟩
  | moveLong dst src, op => op = ⟨.mov, [.reg .long dst, .reg .long src], false⟩
  | load .byte dst mem, op => op = ⟨.movzx, [.reg .long dst, .mem 1 mem.address], false⟩
  | load .word dst mem, op => op = ⟨.movzx, [.reg .long dst, .mem 2 mem.address], false⟩
  | load .long dst mem, op => op = ⟨.mov, [.reg .long dst, .mem 4 mem.address], false⟩
  | load .quad dst mem, op => op = ⟨.mov, [.reg .quad dst, .mem 8 mem.address], false⟩
  | store width mem src, op => op = ⟨.mov, [.mem width.bytes mem.address, .reg width src], false⟩
  | storeImm mem imm, op => op = ⟨.mov, [.mem 8 mem.address, .imm (wordOf 64 imm.toInt)], false⟩
  | loadImm dst imm, op => op.constant? = some (dst, imm)
  | lea dst mem, op => op = ⟨.lea, [.reg .quad dst, .address mem.address], false⟩
  | signExtendByte dst src, op => op = ⟨.movsx, [.reg .quad dst, .reg .byte src], false⟩
  | signExtendWord dst src, op => op = ⟨.movsx, [.reg .quad dst, .reg .word src], false⟩
  | zeroExtendByte dst src, op => op = ⟨.movzx, [.reg .long dst, .reg .byte src], false⟩
  | zeroExtendWord dst src, op => op = ⟨.movzx, [.reg .long dst, .reg .word src], false⟩
  | loadScalar scalar dst mem, op =>
      op = ⟨.movScalar scalar, [.xmm dst.number.toNat, .mem scalar.bytes mem.address], false⟩
  | storeScalar scalar mem src, op =>
      op = ⟨.movScalar scalar, [.mem scalar.bytes mem.address, .xmm src.number.toNat], false⟩
  | moveXmm dst src, op => op = ⟨.movaps, [.xmm dst.number.toNat, .xmm src.number.toNat], false⟩
  | arith a dst imm, op => op = ⟨a.mnemonic, [.reg .quad dst, .imm (wordOf 64 imm.toInt)], false⟩
  | xor dst src, op => op = ⟨.xor, [.reg .long dst, .reg .long src], false⟩
  | testReg a b, op => op = ⟨.test, [.reg .long a, .reg .long b], false⟩
  | testImm reg imm, op => op = ⟨.test, [.reg .long reg, .imm imm.toNat], false⟩
  | testMemImm mem imm, op => op = ⟨.test, [.mem 4 mem.address, .imm imm.toNat], false⟩
  -- a test is symmetric; its encoding has memory first
  | testMem reg mem, op => op = ⟨.test, [.mem 4 mem.address, .reg .long reg], false⟩
  | compareLong mem imm, op =>
      op = ⟨.cmp, [.mem 4 mem.address, .imm (wordOf 32 imm.toInt)], false⟩
  | compareByte mem imm, op => op = ⟨.cmp, [.mem 1 mem.address, .imm imm.toNat], false⟩
  | lockCompareExchange mem src, op => op = ⟨.cmpxchg, [.mem 4 mem.address, .reg .long src], true⟩
  | jump _, op => op = ⟨.jmp, [.distance 0], false⟩
  | jumpIf cond _, op => op = ⟨.jcc cond, [.distance 0], false⟩
  | jumpMem mem, op => op = ⟨.jmp, [.mem 8 mem.address], false⟩
  | callMem mem, op => op = ⟨.call, [.mem 8 mem.address], false⟩
  | ret, op => op = ⟨.ret, [], false⟩
  | breakpoint, op => op = ⟨.int3, [], false⟩

-- ============================================================= numbers

/-- Extended with its sign and cut off again, a number is what it was. -/
theorem wordOf_signed (bits n : Nat) : wordOf bits (signed bits n) = n % 2 ^ bits := by
  have hpow : (2 : Int) ^ bits = ((2 ^ bits : Nat) : Int) := (Int.natCast_pow 2 bits).symm
  rw [wordOf, signed, hpow, Int.bmod_emod, ← Int.natCast_emod, Int.toNat_natCast]

theorem signedBytes_littleEndian (n v : Nat) :
    signedBytes (littleEndian n v) = signed (8 * n) v := by
  rw [signedBytes, littleEndian_length, ofLittleEndian_littleEndian, show 256 = 2 ^ 8 from rfl,
    ← Nat.pow_mul, signed_mod]

/-- So is the number that bytes spell. -/
theorem wordOf_signedBytes (bs : List UInt8) :
    wordOf (8 * bs.length) (signedBytes bs) = ofLittleEndian bs := by
  have hlt := ofLittleEndian_lt bs
  rw [show 256 = 2 ^ 8 from rfl, ← Nat.pow_mul] at hlt
  rw [signedBytes, wordOf_signed, Nat.mod_eq_of_lt hlt]

theorem wordOf_littleEndian {n v : Nat} (h : v < 256 ^ n) :
    wordOf (8 * n) (signedBytes (littleEndian n v)) = v := by
  have hword := wordOf_signedBytes (littleEndian n v)
  rwa [littleEndian_length, ofLittleEndian_littleEndian, Nat.mod_eq_of_lt h] at hword

theorem signed_toUInt32 (v : Int32) : signed 32 v.toUInt32.toNat = v.toInt :=
  (BitVec.toInt_eq_toNat_bmod v.toBitVec).symm

theorem signedBytes_toUInt32 (v : Int32) :
    signedBytes (littleEndian 4 v.toUInt32.toNat) = v.toInt :=
  (signedBytes_littleEndian 4 _).trans (signed_toUInt32 v)

theorem signedBytes_shortByte {v : Int32} (h : isShort v = true) :
    signedBytes [shortByte v] = v.toInt := by
  simp only [isShort, Bool.and_eq_true, decide_eq_true_eq] at h
  have hlow : signedBytes [shortByte v] = signed 8 v.toUInt32.toNat := by
    rw [signedBytes, List.length_singleton, ofLittleEndian, ofLittleEndian, shortByte,
      UInt8.toNat_ofNat', Nat.mul_zero, Nat.add_zero, Nat.mul_one, signed_mod]
  have hword : (v.toUInt32.toNat : Int).bmod (2 ^ 32) = v.toInt := signed_toUInt32 v
  have hdvd : Int.bmod (Int.bmod v.toUInt32.toNat (2 ^ 32)) (2 ^ 8)
      = Int.bmod v.toUInt32.toNat (2 ^ 8) := Int.bmod_bmod_of_dvd (by decide)
  rw [hlow, signed, ← hdvd, hword]
  exact Int.bmod_eq_of_le_mul_two (by omega) (by omega)

-- =========================================================== registers

theorem Reg.ofNumber_index (r : Reg) : Reg.ofNumber r.index.val = r := by
  obtain ⟨i⟩ := r
  exact congrArg Reg.mk (Fin.ofNat_val_eq_self i)

namespace Opcode

variable {op : Opcode} {reg : UInt8} {rm : RegMem} {imm : List UInt8}

/-- A field and its bit of the REX byte make up the register operand. -/
@[simp] theorem number_reg (hreg : reg.toNat < 16) :
    (op.parts reg rm imm).number 2 (reg.toNat % 8) = reg.toNat := by
  have hbit : (op.parts reg rm imm).head.rexBit 2 = decide (8 ≤ reg) := head_rexBit_reg reg rm
  have hle : 8 ≤ reg ↔ 8 ≤ reg.toNat := UInt8.le_iff_toNat_le
  rw [Parts.number, hbit]
  simp only [hle, decide_eq_true_eq]
  split <;> omega

theorem number_rm {r : UInt8} (hr : r.toNat < 16) :
    (op.parts reg (.reg r) imm).number 0 (low ((RegMem.reg r).modrm reg)) = r.toNat := by
  have hbit : (op.parts reg (.reg r) imm).head.rexBit 0 = decide (8 ≤ r) := head_rexBit_rm reg _
  have hle : 8 ≤ r ↔ 8 ≤ r.toNat := UInt8.le_iff_toNat_le
  rw [Parts.number, hbit, RegMem.modrm, low_modRM]
  simp only [hle, decide_eq_true_eq]
  split <;> omega

/-- No operand has an index. -/
theorem number_index (i : Nat) : (op.parts reg rm imm).number 1 i = i := by
  have hbit : (op.parts reg rm imm).head.rexBit 1 = false := head_rexBit_index reg rm
  rw [Parts.number, hbit]
  rfl

/-- Without a REX byte, byte registers are among the first four, whose
numbers mean the same with and without one. -/
theorem lt_four_of_rex_none (hop : op.byteRegs = true) (hrex : (op.head reg rm).rex = none) :
    reg.toNat < 4 ∧ ∀ r, rm = .reg r → r.toNat < 4 := by
  have hlow : ∀ r : UInt8, ¬ 8 ≤ r → isLowByte r = false → r.toNat < 4 := by
    intro r h8 hr
    rw [UInt8.le_iff_toNat_le] at h8
    simp only [isLowByte, Bool.and_eq_false_iff, decide_eq_false_iff_not, UInt8.le_iff_toNat_le,
      UInt8.lt_iff_toNat_lt] at hr
    have h4 : (4 : UInt8).toNat = 4 := rfl
    have h8' : (8 : UInt8).toNat = 8 := rfl
    omega
  have hbits (i : Nat) : (op.head reg rm).rexBit i = false := by
    rw [Head.rexBit, hrex]
    rfl
  have hreg : ¬ 8 ≤ reg := of_decide_eq_false ((head_rexBit_reg reg rm).symm.trans (hbits 2))
  have hrm : rm.extended = false := (head_rexBit_rm reg rm).symm.trans (hbits 0)
  have hneeds : needsByteRex reg rm = false := by
    obtain h | ⟨-, -, hneeds⟩ := rex?_cases op.wide op.byteRegs reg rm
    · exact absurd (h.symm.trans hrex) (by simp)
    · exact hneeds hop
  cases rm with
  | reg r =>
      simp only [needsByteRex, Bool.or_eq_false_iff] at hneeds
      refine ⟨hlow reg hreg hneeds.1, fun r' h => ?_⟩
      cases h
      exact hlow r (of_decide_eq_false hrm) hneeds.2
  | mem m => exact ⟨hlow reg hreg hneeds, fun r h => (nomatch h)⟩

/-- The register operand is read back. -/
@[simp] theorem reg_eq {w : Width} (src : Reg) (hop : w = .byte → op.byteRegs = true) :
    (op.parts src.number rm imm).reg w (rm.modrm src.number) = .reg w src := by
  have hlt := src.index.isLt
  rw [Parts.reg, RegMem.middle_modrm, number_reg (by rw [Reg.toNat_number]; exact hlt),
    Reg.toNat_number, Parts.register, if_neg, Reg.ofNumber_index]
  rintro ⟨hw, hrex, h4⟩
  have := (lt_four_of_rex_none (hop hw) hrex).1
  rw [Reg.toNat_number] at this
  omega

/-- So is a register in the `r/m` field. -/
@[simp] theorem rm_reg {w : Width} (src : Reg) (hop : w = .byte → op.byteRegs = true) :
    (op.parts reg (.reg src.number) imm).rm w ((RegMem.reg src.number).modrm reg)
      = .reg w src := by
  have hlt := src.index.isLt
  rw [Parts.rm, if_pos (by rw [RegMem.modrm, high_modRM]; rfl),
    number_rm (by rw [Reg.toNat_number]; exact hlt), Reg.toNat_number, Parts.register, if_neg,
    Reg.ofNumber_index]
  rintro ⟨hw, hrex, h4⟩
  have := (lt_four_of_rex_none (hop hw) hrex).2 _ rfl
  rw [Reg.toNat_number] at this
  omega

@[simp] theorem xmmRm_reg {size : Nat} {x : Xmm} (hx : x.number.toNat < 16) :
    (op.parts reg (.reg x.number) imm).xmmRm size ((RegMem.reg x.number).modrm reg)
      = .xmm x.number.toNat := by
  rw [Parts.xmmRm, if_pos (by rw [RegMem.modrm, high_modRM]; rfl), number_rm hx]

-- =========================================================== addresses

theorem mem_ownPrefixes :
    0x66 ∈ ownPrefixes ∧ 0xF0 ∈ ownPrefixes ∧ 0xF2 ∈ ownPrefixes ∧ 0xF3 ∈ ownPrefixes := by
  decide

/-- The prefixes of an operation choose no segment. -/
theorem segment_eq (h : op.leading ⊆ ownPrefixes) :
    ((op.head reg rm).legacy.filterMap Segment.ofByte?).getLast?
      = match rm with
        | .mem (.gs _) => some .gs
        | _ => none := by
  have hnone : ownPrefixes.filterMap Segment.ofByte? = [] := by decide
  have hown : op.leading.filterMap Segment.ofByte? = [] :=
    List.filterMap_eq_nil_iff.mpr fun b hb => List.filterMap_eq_nil_iff.mp hnone b (h hb)
  rw [head, List.filterMap_append, hown, List.append_nil]
  cases rm with
  | reg r => rfl
  | mem m =>
      cases m with
      | gs address => rfl
      | base base disp => rfl

theorem number_base (base : Reg) (disp : Int32) :
    (op.parts reg (.mem (.base base disp)) imm).number 0 (base.index.val % 8)
      = base.index.val := by
  have hlt := base.index.isLt
  have hbit : (op.parts reg (.mem (.base base disp)) imm).head.rexBit 0 = base.isExtended :=
    head_rexBit_rm reg _
  rw [Parts.number, hbit, Reg.isExtended]
  simp only [decide_eq_true_eq]
  split <;> omega

/-- A displacement is read back under any mode. -/
theorem signedBytes_disp (base : Reg) (disp : Int32) :
    signedBytes (RegMem.mem (.base base disp)).disp = disp.toInt := by
  rw [RegMem.disp]
  obtain ⟨hmode, hzero, -⟩ | ⟨hmode, hshort⟩ | hmode := RegMem.baseMode_cases base disp
  · rw [hmode, hzero]
    rfl
  · rw [hmode]
    exact signedBytes_shortByte hshort
  · rw [hmode]
    exact signedBytes_toUInt32 disp

/-- The two SIB bytes that occur name no index. -/
theorem index_none (s : UInt8) (hs : s = 0x24 ∨ s = 0x25) :
    (if (op.parts reg rm imm).number 1 (middle s) = 4 then none
      else some (Reg.ofNumber ((op.parts reg rm imm).number 1 (middle s)), 2 ^ high s)) = none := by
  have hindex : middle s = 4 := by
    obtain rfl | rfl := hs <;> decide
  rw [number_index, hindex, if_pos rfl]

/-- The address of a memory operand is read back. -/
@[simp] theorem address_eq (h : op.leading ⊆ ownPrefixes) (m : Mem) :
    (op.parts reg (.mem m) imm).address ((RegMem.mem m).modrm reg) = m.address := by
  cases m with
  | gs address =>
      simp only [Parts.address, Mem.address, Address.mk.injEq]
      refine ⟨segment_eq h, ?_, index_none 0x25 (.inr rfl), ?_⟩
      · have hmode : high ((RegMem.mem (.gs address)).modrm reg) = 0 := high_modRM _ _ _
        have hbase : baseField ((RegMem.mem (.gs address)).modrm reg) (some 0x25) = 5 := by
          show low 0x25 = 5
          decide
        exact (if_pos ⟨hmode, hbase⟩).trans (if_pos rfl)
      · have hdisp : signedBytes (littleEndian 4 address.toNat) = address.toInt32.toInt :=
          signedBytes_toUInt32 address.toInt32
        show Int32.ofInt (signedBytes (littleEndian 4 address.toNat)) = address.toInt32
        rw [hdisp, Int32.ofInt_toInt]
  | base base disp =>
      simp only [Parts.address, Mem.address, Address.mk.injEq]
      refine ⟨segment_eq h, ?_, ?_, ?_⟩
      · have hbase : baseField ((RegMem.mem (.base base disp)).modrm reg)
            (op.parts reg (.mem (.base base disp)) imm).sib = base.index.val % 8 :=
          RegMem.baseField_base reg base disp
        rw [if_neg, hbase, number_base, Reg.ofNumber_index]
        rintro ⟨hmode, h5⟩
        exact RegMem.base_of_mode_zero reg hmode (hbase.symm.trans h5)
      · show (RegMem.mem (.base base disp)).sib.bind _ = none
        rw [RegMem.sib]
        split
        · exact index_none 0x24 (.inl rfl)
        · rfl
      · show Int32.ofInt (signedBytes (RegMem.mem (.base base disp)).disp) = disp
        rw [signedBytes_disp, Int32.ofInt_toInt]

@[simp] theorem rm_mem (h : op.leading ⊆ ownPrefixes) {w : Width} (m : Mem) :
    (op.parts reg (.mem m) imm).rm w ((RegMem.mem m).modrm reg) = .mem w.bytes m.address := by
  rw [Parts.rm, if_neg (RegMem.high_mem reg m), address_eq h]

@[simp] theorem xmmRm_mem (h : op.leading ⊆ ownPrefixes) {size : Nat} (m : Mem) :
    (op.parts reg (.mem m) imm).xmmRm size ((RegMem.mem m).modrm reg) = .mem size m.address := by
  rw [Parts.xmmRm, if_neg (RegMem.high_mem reg m), address_eq h]

-- ========================================================== operations

/-- The width of an operation is the opcode's. -/
@[simp] theorem width_eq :
    (op.parts reg rm imm).width
      = if op.wide then .quad else if 0x66 ∈ op.leading then .word else .long := by
  have hwide : (op.parts reg rm imm).head.wide = op.wide := head_wide reg rm
  have hsize : 0x66 ∈ (op.parts reg rm imm).head.legacy ↔ 0x66 ∈ op.leading :=
    mem_legacy reg rm (by decide)
  rw [Parts.width, hwide]
  simp only [hsize]

@[simp] theorem immediate_eq {w : Width} :
    (op.parts reg rm imm).immediate w = .imm (wordOf (8 * w.bytes) (signedBytes imm)) := rfl

/-- The prefix that chooses an SSE operation is the opcode's. -/
theorem repetition?_eq :
    (op.parts reg rm imm).repetition?
      = (op.leading.filter fun b => b = 0xF2 ∨ b = 0xF3).getLast? := by
  have hsegment : (segmentBytes rm).filter (fun b => b = 0xF2 ∨ b = 0xF3) = [] := by
    unfold segmentBytes
    split <;> rfl
  rw [Parts.repetition?, parts, head, List.filter_append, hsegment, List.nil_append]

/-- What an opcode says is up to its byte and the prefixes of its own. -/
theorem operation?_eq (h : op.leading ⊆ ownPrefixes) :
    (op.parts reg rm imm).operation?
      = (if op.code.escaped then
            (op.parts reg rm imm).escaped?
              (op.leading.filter fun b => b = 0xF2 ∨ b = 0xF3).getLast? (rm.modrm reg)
          else (op.parts reg rm imm).withOperand? (rm.modrm reg)).map
        fun o => { o with locked := 0xF0 ∈ op.leading } := by
  have hshort : 0x67 ∉ (op.parts reg rm imm).head.legacy := by
    intro hmem
    have := h ((mem_legacy reg rm (by decide)).mp hmem)
    revert this
    decide
  have hlock : 0xF0 ∈ (op.parts reg rm imm).head.legacy ↔ 0xF0 ∈ op.leading :=
    mem_legacy reg rm (by decide)
  have hcode : (op.parts reg rm imm).head.opcode.escaped = op.code.escaped := rfl
  have hmodrm : (op.parts reg rm imm).modrm = some (rm.modrm reg) := rfl
  rw [Parts.operation?, if_neg hshort]
  simp only [hlock, repetition?_eq, hcode, hmodrm]
  cases op.code.escaped <;> rfl

end Opcode

-- ============================================ registers in the opcode

theorem toNat_row {opcode : UInt8} (h8 : opcode.toNat % 8 = 0) (reg : Reg) :
    (opcode + reg.code).toNat = opcode.toNat + reg.index.val % 8 := by
  have hlt := opcode.toNat_lt
  rw [UInt8.toNat_add, Reg.toNat_code]
  omega

/-- The row of an opcode is that of its first register. -/
theorem row_eq {opcode : UInt8} (h8 : opcode.toNat % 8 = 0) (reg : Reg) :
    (opcode + reg.code).toNat / 8 = opcode.toNat / 8 := by
  rw [toNat_row h8]
  omega

theorem shortParts_register {opcode : UInt8} (h8 : opcode.toNat % 8 = 0) {w : Width}
    (hw : w ≠ .byte) (wide : Bool) (reg : Reg) (imm : List UInt8) :
    (shortParts opcode wide reg imm).register w
      ((shortParts opcode wide reg imm).number 0 (low (opcode + reg.code))) = .reg w reg := by
  have hbit : (shortParts opcode wide reg imm).head.rexBit 0 = decide (8 ≤ reg.number) :=
    (rex?_bit (by decide)).trans (rexByte_bits wide 0 _).2.2.2.2
  have hnumber : (shortParts opcode wide reg imm).number 0 (low (opcode + reg.code))
      = reg.index.val := by
    have hlt := reg.index.isLt
    rw [Parts.number, hbit, low, toNat_row h8]
    simp only [Reg.eight_le_number, Reg.isExtended, decide_eq_true_eq]
    split <;> omega
  rw [hnumber, Parts.register, if_neg (fun h => hw h.1), Reg.ofNumber_index]

theorem push_operation (reg : Reg) :
    (shortParts 0x50 false reg []).operation? = some ⟨.push, [.reg .quad reg], false⟩ := by
  have h8 : (0x50 : UInt8).toNat % 8 = 0 := by decide
  rw [← shortParts_register h8 (by decide : Width.quad ≠ .byte) false reg []]
  exact congrArg (Option.map _) (if_pos (row_eq h8 reg))

theorem pop_operation (reg : Reg) :
    (shortParts 0x58 false reg []).operation? = some ⟨.pop, [.reg .quad reg], false⟩ := by
  have h8 : (0x58 : UInt8).toNat % 8 = 0 := by decide
  rw [← shortParts_register h8 (by decide : Width.quad ≠ .byte) false reg []]
  refine congrArg (Option.map _) ((if_neg ?_).trans (if_pos (row_eq h8 reg)))
  exact fun h => absurd ((row_eq h8 reg).symm.trans h) (by decide)

/-- A constant has the width of the operation. -/
theorem constant_operation {wide : Bool} {w : Width} (hw : w = if wide then .quad else .long)
    (reg : Reg) (imm : List UInt8) :
    (shortParts 0xB8 wide reg imm).operation?
      = some ⟨.mov, [.reg w reg, .imm (wordOf (8 * w.bytes) (signedBytes imm))], false⟩ := by
  have h8 : (0xB8 : UInt8).toNat % 8 = 0 := by decide
  have hrow := row_eq h8 reg
  have hwidth : (shortParts 0xB8 wide reg imm).width = w := by
    rw [hw, Parts.width, shortParts_wide]
    rfl
  have hbyte : w ≠ .byte := by
    rw [hw]
    cases wide <;> decide
  rw [← shortParts_register h8 hbyte wide reg imm, ← hwidth]
  refine congrArg (Option.map _) ((if_neg ?_).trans ((if_neg ?_).trans (if_pos hrow)))
  · exact fun h => absurd (hrow.symm.trans h) (by decide)
  · exact fun h => absurd (hrow.symm.trans h) (by decide)

-- ============================================ operations with a choice

/-- The group of operations with an immediate. -/
theorem Opcode.group_operation {op : Opcode} {reg : UInt8} {rm : RegMem} {imm : List UInt8}
    {w : Width} (hop : op.leading = []) (hw : w = if op.wide then .quad else .long)
    (hcode : op.code = ⟨false, 0x81⟩ ∨ op.code = ⟨false, 0x83⟩) :
    (op.parts reg rm imm).operation?
      = some ⟨groupMnemonic (reg.toNat % 8), [(op.parts reg rm imm).rm w (rm.modrm reg),
          .imm (wordOf (8 * w.bytes) (signedBytes imm))], false⟩ := by
  have hown : op.leading ⊆ ownPrefixes := by
    rw [hop]
    exact List.nil_subset _
  have hgroup : (op.parts reg rm imm).withOperand? (rm.modrm reg)
      = some ⟨groupMnemonic (middle (rm.modrm reg)),
          [(op.parts reg rm imm).rm (op.parts reg rm imm).width (rm.modrm reg),
            (op.parts reg rm imm).immediate (op.parts reg rm imm).width], false⟩ := by
    have hbyte : (op.parts reg rm imm).head.opcode = op.code := rfl
    rw [Parts.withOperand?, hbyte]
    obtain hcode | hcode := hcode
    · rw [hcode]
      rfl
    · rw [hcode]
      rfl
  have hprimary : op.code.escaped = false := by
    obtain hcode | hcode := hcode <;> rw [hcode]
  simp [operation?_eq hown, hgroup, hprimary, hop, hw]

/-- Both forms of an immediate say the same. -/
theorem immediateParts_operation {wide : Bool} {extension : UInt8} {rm : RegMem} {o : Operand}
    (imm : Int32)
    (hrm : ∀ op : Opcode, op.leading = [] → ∀ bs,
      (op.parts extension rm bs).rm (if wide then .quad else .long) (rm.modrm extension) = o) :
    (immediateParts wide extension rm imm).operation?
      = some ⟨groupMnemonic (extension.toNat % 8),
          [o, .imm (wordOf (if wide then 64 else 32) imm.toInt)], false⟩ := by
  have hbits : 8 * Width.bytes (if wide then .quad else .long) = if wide then 64 else 32 := by
    cases wide <;> rfl
  unfold immediateParts
  split
  · next hshort =>
      rw [Opcode.group_operation rfl rfl (.inr rfl), signedBytes_shortByte hshort]
      dsimp only
      rw [hrm _ rfl, hbits]
  · rw [Opcode.group_operation rfl rfl (.inl rfl), signedBytes_toUInt32]
    dsimp only
    rw [hrm _ rfl, hbits]

/-- The group's operation is chosen by the extension. -/
theorem groupMnemonic_extension (a : Arith) :
    groupMnemonic (a.extension.toNat % 8) = a.mnemonic := by
  cases a <;> rfl

namespace Instr

/-- Either way of loading a constant gives all of its 64 bits. -/
theorem loadImm_operation (dst : Reg) (imm : UInt64) :
    ∃ op, (loadImm dst imm).parts.operation? = some op ∧ op.constant? = some (dst, imm) := by
  by_cases himm : imm ≤ 0xFFFFFFFF
  · have hlt : imm.toNat < 256 ^ 4 := Nat.lt_succ_of_le (UInt64.le_iff_toNat_le.mp himm)
    have hword : wordOf (8 * 4) (signedBytes (littleEndian 4 imm.toNat)) = imm.toNat :=
      wordOf_littleEndian hlt
    have hzero : (UInt32.ofNat imm.toNat).toUInt64 = imm := by
      rw [← UInt64.toNat_inj, UInt32.toNat_toUInt64, UInt32.toNat_ofNat_of_lt' hlt]
    refine ⟨_, (congrArg Parts.operation? (if_pos himm)).trans (constant_operation rfl _ _), ?_⟩
    show some (dst, (UInt32.ofNat (wordOf (8 * 4) _)).toUInt64) = _
    rw [hword, hzero]
  · have hword : wordOf (8 * 8) (signedBytes (littleEndian 8 imm.toNat)) = imm.toNat :=
      wordOf_littleEndian imm.toNat_lt
    refine ⟨_, (congrArg Parts.operation? (if_neg himm)).trans (constant_operation rfl _ _), ?_⟩
    show some (dst, UInt64.ofNat (wordOf (8 * 8) _)) = _
    rw [hword, UInt64.ofNat_toNat]

theorem jump_operation :
    (bareParts ⟨false, 0xE9⟩ [0, 0, 0, 0]).operation? = some ⟨.jmp, [.distance 0], false⟩ := by
  decide

theorem jumpIf_operation (cond : Cond) :
    (bareParts ⟨true, 0x80 + UInt8.ofNat cond.code⟩ [0, 0, 0, 0]).operation?
      = some ⟨.jcc cond, [.distance 0], false⟩ := by
  obtain ⟨c⟩ := cond
  revert c
  decide

/-- The parts of an instruction say what it means. -/
theorem parts_operation (i : Instr) (hx : ∀ x ∈ i.xmms, x.number.toNat < 16) :
    ∃ op, i.parts.operation? = some op ∧ i.Names op := by
  cases i with
  | push reg => exact ⟨_, push_operation reg, rfl⟩
  | pop reg => exact ⟨_, pop_operation reg, rfl⟩
  | load width dst mem =>
      cases width
      all_goals
        refine ⟨_, (Opcode.operation?_eq (by decide)).trans rfl, ?_⟩
        simp [Names, loadOpcode, Width.bytes]
  | store width mem src =>
      cases width
      all_goals
        refine ⟨_, (Opcode.operation?_eq (by decide)).trans rfl, ?_⟩
        simp [Names, storeOpcode, Opcode.mem_ownPrefixes]
  | storeImm mem imm =>
      refine ⟨_, (Opcode.operation?_eq (by decide)).trans
        (congrArg (Option.map _) (if_pos (RegMem.middle_modrm 0 _))), ?_⟩
      simp [Names, Width.bytes, signedBytes_toUInt32]
  | loadImm dst imm => exact loadImm_operation dst imm
  | lea dst mem =>
      refine ⟨_, (Opcode.operation?_eq (by decide)).trans
        (congrArg (Option.map _) (if_neg (RegMem.high_mem _ mem))), ?_⟩
      simp [Names]
  | loadScalar scalar dst mem =>
      have hdst : dst.number.toNat < 16 := hx dst (by simp [xmms])
      cases scalar
      all_goals
        refine ⟨_, (Opcode.operation?_eq (by decide)).trans rfl, ?_⟩
        simp [Names, Scalar.bytes, scalarByte, Opcode.mem_ownPrefixes, hdst]
  | storeScalar scalar mem src =>
      have hsrc : src.number.toNat < 16 := hx src (by simp [xmms])
      cases scalar
      all_goals
        refine ⟨_, (Opcode.operation?_eq (by decide)).trans rfl, ?_⟩
        simp [Names, Scalar.bytes, scalarByte, Opcode.mem_ownPrefixes, hsrc]
  | moveXmm dst src =>
      have hdst : dst.number.toNat < 16 := hx dst (by simp [xmms])
      have hsrc : src.number.toNat < 16 := hx src (by simp [xmms])
      refine ⟨_, (Opcode.operation?_eq (by decide)).trans rfl, ?_⟩
      simp [Names, hdst, hsrc]
  | arith op dst imm =>
      refine ⟨_, immediateParts_operation imm fun _ _ _ => Opcode.rm_reg dst ?_, ?_⟩
      · simp
      · rw [groupMnemonic_extension]
        rfl
  | testImm reg imm =>
      have himm : wordOf 32 (signedBytes (littleEndian 4 imm.toNat)) = imm.toNat :=
        wordOf_littleEndian imm.toNat_lt
      refine ⟨_, (Opcode.operation?_eq (by decide)).trans
        (congrArg (Option.map _) (if_pos (RegMem.middle_modrm 0 _))), ?_⟩
      simp [Names, Width.bytes, himm]
  | testMemImm mem imm =>
      have himm : wordOf 32 (signedBytes (littleEndian 4 imm.toNat)) = imm.toNat :=
        wordOf_littleEndian imm.toNat_lt
      refine ⟨_, (Opcode.operation?_eq (by decide)).trans
        (congrArg (Option.map _) (if_pos (RegMem.middle_modrm 0 _))), ?_⟩
      simp [Names, Width.bytes, himm]
  | compareLong mem imm =>
      refine ⟨_, immediateParts_operation imm fun op hop _ => Opcode.rm_mem ?_ mem, rfl⟩
      rw [hop]
      exact List.nil_subset _
  | compareByte mem imm =>
      have himm : wordOf 8 (signedBytes [imm]) = imm.toNat := wordOf_signedBytes [imm]
      refine ⟨_, (Opcode.operation?_eq (by decide)).trans rfl, ?_⟩
      simp [Names, Width.bytes, groupMnemonic, himm]
  | jump label => exact ⟨_, jump_operation, rfl⟩
  | jumpIf cond label => exact ⟨_, jumpIf_operation cond, rfl⟩
  | jumpMem mem =>
      have hcall : middle ((RegMem.mem mem).modrm 4) ≠ 2 := by
        rw [RegMem.middle_modrm]
        decide
      refine ⟨_, (Opcode.operation?_eq (by decide)).trans (congrArg (Option.map _)
        ((if_neg hcall).trans (if_pos (RegMem.middle_modrm 4 _)))), ?_⟩
      simp [Names, Width.bytes]
  | callMem mem =>
      refine ⟨_, (Opcode.operation?_eq (by decide)).trans
        (congrArg (Option.map _) (if_pos (RegMem.middle_modrm 2 _))), ?_⟩
      simp [Names, Width.bytes]
  | ret => exact ⟨_, rfl, rfl⟩
  | breakpoint => exact ⟨_, rfl, rfl⟩
  | _ =>
      refine ⟨_, (Opcode.operation?_eq (by decide)).trans rfl, ?_⟩
      simp [Names, Width.bytes, Opcode.mem_ownPrefixes]

/-- Reading an encoded instruction gives back the operation it names, with
the operands it was made of, and consumes exactly its bytes. -/
theorem disassemble_bytes (i : Instr) (hx : ∀ x ∈ i.xmms, x.number < 16) (rest : List UInt8) :
    ∃ op, disassemble (i.bytes ++ rest) = some (op, rest) ∧ i.Names op := by
  obtain ⟨op, hop, hnames⟩ := i.parts_operation fun x hmem => UInt8.lt_iff_toNat_lt.mp (hx x hmem)
  refine ⟨op, ?_, hnames⟩
  rw [disassemble, i.parts_encodes.parts? rest]
  simp [hop]

/-- The store of an SSE register through `r13`, whose base needs a
displacement and whose numbers need a REX byte behind the prefix. -/
theorem disassemble_bytes_storeScalar :
    (∀ x ∈ (storeScalar .double (.base .r13 0) ⟨9⟩).xmms, x.number < 16)
      ∧ ∃ op, disassemble ((storeScalar .double (.base .r13 0) ⟨9⟩).bytes ++ [0xC3])
          = some (op, [0xC3])
        ∧ (storeScalar .double (.base .r13 0) ⟨9⟩).Names op :=
  ⟨by decide, disassemble_bytes _ (by decide) _⟩

end Instr

end Crossing.X86
