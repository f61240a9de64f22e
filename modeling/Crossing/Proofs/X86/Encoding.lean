import Crossing.Proofs.Code.Bytes
import Crossing.Proofs.X86.Format
import Crossing.X86.Instr

/-
Encoded instructions in the terms of the format. `Instr.parts` says which
byte of an encoded instruction is which part of it; the file shows that these
are the bytes the encoder emits (`Instr.parts_bytes`) and that the parts are
well formed in 64-bit mode (`Instr.parts_wellFormed`). From there on the
grammar speaks for the encoder: whatever follows an instruction, its parts
are found again.

All but a few instructions are an opcode with a ModRM byte, so most of the
work is done once, for every opcode of that kind (`Opcode.Listed`).
-/
namespace Crossing.X86

open Code Format

-- ============================================================== fields

theorem toNat_modRM (mode reg rm : UInt8) :
    (modRM mode reg rm).toNat = mode.toNat % 4 * 64 + (reg.toNat % 8 * 8 + rm.toNat % 8) := by
  have hmode : (mode &&& 3).toNat = mode.toNat % 4 := by
    rw [UInt8.toNat_and]
    exact Nat.and_two_pow_sub_one_eq_mod mode.toNat 2
  have hhigh : ((mode &&& 3) <<< 6).toNat = mode.toNat % 4 * 64 := by
    rw [UInt8.toNat_shiftLeft, hmode, Nat.shiftLeft_eq]
    exact Nat.mod_eq_of_lt (by show _ * 64 < 256; omega)
  have hmiddle : ((reg &&& 7) <<< 3).toNat = reg.toNat % 8 * 8 := by
    rw [UInt8.toNat_shiftLeft, toNat_and_seven, Nat.shiftLeft_eq]
    exact Nat.mod_eq_of_lt (by show _ * 8 < 256; omega)
  rw [modRM, UInt8.toNat_or, UInt8.toNat_or, hhigh, hmiddle, toNat_and_seven, Nat.or_assoc]
  -- each part lies below the lowest bit of the one before it
  rw [← Nat.shiftLeft_eq (reg.toNat % 8) 3, ← Nat.shiftLeft_add_eq_or_of_lt (by omega),
    ← Nat.shiftLeft_eq (mode.toNat % 4) 6,
    ← Nat.shiftLeft_add_eq_or_of_lt (by rw [Nat.shiftLeft_eq]; omega)]

@[simp] theorem high_modRM (mode reg rm : UInt8) : high (modRM mode reg rm) = mode.toNat % 4 := by
  rw [high, toNat_modRM]
  omega

@[simp] theorem middle_modRM (mode reg rm : UInt8) :
    middle (modRM mode reg rm) = reg.toNat % 8 := by
  rw [middle, toNat_modRM]
  omega

@[simp] theorem low_modRM (mode reg rm : UInt8) : low (modRM mode reg rm) = rm.toNat % 8 := by
  rw [low, toNat_modRM]
  omega

@[simp] theorem Reg.toNat_number (r : Reg) : r.number.toNat = r.index.val := by
  have := r.index.isLt
  rw [Reg.number, UInt8.toNat_ofNat']
  omega

@[simp] theorem Reg.toNat_code (r : Reg) : r.code.toNat = r.index.val % 8 := by
  rw [Reg.code, toNat_and_seven, Reg.toNat_number]

theorem Reg.code_eq_iff {r : Reg} {n : UInt8} : r.code = n ↔ r.index.val % 8 = n.toNat := by
  rw [← UInt8.toNat_inj, Reg.toNat_code]

theorem Reg.code_eq_ofNat (r : Reg) : r.code = UInt8.ofNat (r.index.val % 8) := by
  rw [Reg.code_eq_iff, UInt8.toNat_ofNat']
  omega

theorem Reg.eight_le_number (r : Reg) : 8 ≤ r.number ↔ r.isExtended = true := by
  rw [UInt8.le_iff_toNat_le, Reg.toNat_number, Reg.isExtended, decide_eq_true_iff]
  rfl

-- ===================================================== operand of ModRM

namespace RegMem

variable (reg : UInt8) (rm : RegMem)

/-- The ModRM byte of an operand. -/
def modrm : RegMem → UInt8
  | .reg r => modRM 3 reg r
  | .mem (.gs _) => modRM 0 reg 4
  | .mem (.base base disp) => modRM (baseMode base disp) reg base.code

/-- Its SIB byte. -/
def sib : RegMem → Option UInt8
  | .reg _ => none
  | .mem (.gs _) => some 0x25
  | .mem (.base base _) => if base.code = 4 then some 0x24 else none

/-- Its displacement. -/
def disp : RegMem → List UInt8
  | .reg _ => []
  | .mem (.gs address) => littleEndian 4 address.toNat
  | .mem (.base base disp) => displacementBytes (baseMode base disp) disp

/-- Whether the REX byte extends the `r/m` field. -/
def extended : RegMem → Bool
  | .reg r => 8 ≤ r
  | .mem (.gs _) => false
  | .mem (.base base _) => base.isExtended

theorem operandBytes_eq : operandBytes reg rm = rm.modrm reg :: (rm.sib.toList ++ rm.disp) := by
  cases rm with
  | reg r => rfl
  | mem m =>
      cases m with
      | gs address => rfl
      | base base disp =>
          simp only [operandBytes, modrm, sib, RegMem.disp]
          split <;> rfl

@[simp] theorem middle_modrm : middle (rm.modrm reg) = reg.toNat % 8 := by
  cases rm with
  | reg r => exact middle_modRM _ _ _
  | mem m =>
      cases m with
      | gs address => exact middle_modRM _ _ _
      | base base disp => exact middle_modRM _ _ _

/-- The modes of a base, and what each of them is for. -/
theorem baseMode_cases (base : Reg) (disp : Int32) :
    (baseMode base disp = 0 ∧ disp = 0 ∧ base.code ≠ 5)
      ∨ (baseMode base disp = 1 ∧ isShort disp = true)
      ∨ baseMode base disp = 2 := by
  unfold baseMode
  split
  · next h => exact .inl ⟨rfl, h⟩
  · split
    · next h => exact .inr (.inl ⟨rfl, h⟩)
    · exact .inr (.inr rfl)

theorem high_mem (m : Mem) : high ((mem m).modrm reg) ≠ 3 := by
  cases m with
  | gs address =>
      rw [modrm, high_modRM]
      decide
  | base base disp =>
      rw [modrm, high_modRM]
      obtain ⟨h, -⟩ | ⟨h, -⟩ | h := baseMode_cases base disp <;> rw [h] <;> decide

theorem sib_isSome : rm.sib.isSome = hasSib false (some (rm.modrm reg)) := by
  cases rm with
  | reg r => simp [sib, modrm, hasSib]
  | mem m =>
      cases m with
      | gs address => simp [sib, modrm, hasSib]
      | base base disp =>
          have hcode : base.code = 4 ↔ base.index.val % 8 = 4 := Reg.code_eq_iff
          have hmode : (baseMode base disp).toNat % 4 ≠ 3 := by
            simpa [modrm] using high_mem reg (.base base disp)
          by_cases h4 : base.index.val % 8 = 4
          · simp [sib, modrm, hasSib, hcode, hmode, h4]
          · simp [sib, modrm, hasSib, hcode, hmode, h4]

/-- A base is named by its code, with or without a SIB byte. -/
theorem baseField_base (base : Reg) (disp : Int32) :
    baseField ((mem (.base base disp)).modrm reg) (mem (.base base disp)).sib
      = base.index.val % 8 := by
  by_cases h4 : base.code = 4
  · have hsib : low 0x24 = (4 : UInt8).toNat := by decide
    rw [sib, if_pos h4, Reg.code_eq_iff.mp h4, baseField, Option.getD_some, hsib]
  · rw [sib, if_neg h4, baseField, Option.getD_none, modrm, low_modRM, Reg.toNat_code, Nat.mod_mod]

/-- The code that stands for no base does not come without a
displacement. -/
theorem base_of_mode_zero {base : Reg} {disp : Int32}
    (h : high ((mem (.base base disp)).modrm reg) = 0) : base.index.val % 8 ≠ 5 := by
  rw [modrm, high_modRM] at h
  obtain ⟨-, -, hbase⟩ | ⟨hmode, -⟩ | hmode := baseMode_cases base disp
  · exact fun h5 => hbase (Reg.code_eq_iff.mpr h5)
  · rw [hmode] at h
    cases h
  · rw [hmode] at h
    cases h

theorem disp_length : rm.disp.length = dispBytes false (some (rm.modrm reg)) rm.sib := by
  cases rm with
  | reg r => simp [RegMem.disp, modrm, dispBytes]
  | mem m =>
      cases m with
      | gs address =>
          have hbase : low 0x25 = 5 := rfl
          simp [RegMem.disp, modrm, sib, dispBytes, baseField, hbase]
      | base base disp =>
          have hbase := baseField_base reg base disp
          have hzero : high ((mem (.base base disp)).modrm reg) = 0 → base.index.val % 8 ≠ 5 :=
            base_of_mode_zero reg
          simp only [RegMem.disp, dispBytes, hbase, Bool.false_eq_true, if_false]
          simp only [modrm, high_modRM] at hzero ⊢
          obtain ⟨hmode, -⟩ | ⟨hmode, -⟩ | hmode := baseMode_cases base disp
          · rw [hmode] at hzero ⊢
            exact (if_neg (hzero rfl)).symm
          · rw [hmode]
            rfl
          · rw [hmode]
            rfl

end RegMem

-- ======================================================== the REX byte

theorem rexB_eq (rm : RegMem) : rexB rm = if rm.extended then 1 else 0 := by
  cases rm with
  | reg r => simp only [rexB, RegMem.extended, decide_eq_true_eq]
  | mem m =>
      cases m with
      | gs address => rfl
      | base base disp => rfl

/-- The REX byte is one, and says of the operands what its bits mean. No
operand has an index. -/
theorem rexByte_bits (wide : Bool) (reg : UInt8) (rm : RegMem) :
    isRexPrefix (rexByte wide reg rm) = true
      ∧ (rexByte wide reg rm).toNat.testBit 3 = wide
      ∧ (rexByte wide reg rm).toNat.testBit 2 = decide (8 ≤ reg)
      ∧ (rexByte wide reg rm).toNat.testBit 1 = false
      ∧ (rexByte wide reg rm).toNat.testBit 0 = rm.extended := by
  rw [rexByte, rexB_eq]
  generalize rm.extended = extended
  by_cases hreg : 8 ≤ reg
  · simp only [hreg, if_true, decide_true]
    revert wide extended
    decide
  · simp only [hreg, if_false, decide_false]
    revert wide extended
    decide

/-- The REX byte of an instruction, if it has one. -/
def rex? (wide byteRegs : Bool) (reg : UInt8) (rm : RegMem) : Option UInt8 :=
  (rexBytes wide byteRegs reg rm).head?

theorem rex?_toList (wide byteRegs : Bool) (reg : UInt8) (rm : RegMem) :
    (rex? wide byteRegs reg rm).toList = rexBytes wide byteRegs reg rm := by
  simp only [rex?, rexBytes]
  split <;> rfl

/-- The REX byte is left out only when none of its bits is set. -/
theorem rex?_cases (wide byteRegs : Bool) (reg : UInt8) (rm : RegMem) :
    rex? wide byteRegs reg rm = some (rexByte wide reg rm)
      ∨ rex? wide byteRegs reg rm = none ∧ rexByte wide reg rm = 0x40
        ∧ (byteRegs = true → needsByteRex reg rm = false) := by
  simp only [rex?, rexBytes]
  split
  · exact .inl rfl
  · next h =>
      simp only [Bool.or_eq_true, decide_eq_true_eq, Bool.and_eq_true, not_or, ne_eq,
        Decidable.not_not, not_and, Bool.not_eq_true] at h
      exact .inr ⟨rfl, h⟩

/-- Left out or not, the REX byte has the bits of the one that says it
all. -/
theorem rex?_bit {wide byteRegs : Bool} {reg : UInt8} {rm : RegMem} {i : Nat} (hi : i < 4) :
    (rex? wide byteRegs reg rm).any (fun b => b.toNat.testBit i)
      = (rexByte wide reg rm).toNat.testBit i := by
  obtain h | ⟨h, hnone, -⟩ := rex?_cases wide byteRegs reg rm
  · rw [h]
    rfl
  · have hclear : ∀ i < 4, (0x40 : UInt8).toNat.testBit i = false := by decide
    rw [h, hnone, hclear i hi]
    rfl

/-- Where a REX byte stands, it is one. -/
theorem isRexPrefix_of_rex? {wide byteRegs : Bool} {reg b : UInt8} {rm : RegMem}
    (hb : rex? wide byteRegs reg rm = some b) : isRexPrefix b = true := by
  obtain h | ⟨h, -⟩ := rex?_cases wide byteRegs reg rm
  · rw [h] at hb
    cases hb
    exact (rexByte_bits wide reg rm).1
  · rw [h] at hb
    cases hb

-- ============================================================= opcodes

/-- The parts are those of one instruction of 64-bit mode, and these are its
bytes. -/
structure Format.Parts.Encodes (p : Parts) (code : List UInt8) : Prop where
  bytes : p.bytes = code
  wellFormed : ∃ form, WellFormed true form p

/-- The parts are found again, whatever follows. -/
theorem Format.Parts.Encodes.parts? {p : Parts} {code : List UInt8} (h : p.Encodes code)
    (rest : List UInt8) : parts? true (code ++ rest) = some (p, rest) :=
  parts?_eq_some_iff.mpr ⟨h.wellFormed, by rw [h.bytes]⟩

namespace Opcode

variable (op : Opcode) (reg : UInt8) (rm : RegMem) (imm : List UInt8)

/-- The opcode byte, behind the escape byte if there is one. -/
def code : OpByte :=
  match op.bytes with
  | [b] => ⟨false, b⟩
  | _ :: b :: _ => ⟨true, b⟩
  | [] => ⟨false, 0⟩

/-- The part of an instruction up to its opcode. -/
def head : Head where
  legacy := segmentBytes rm ++ op.leading
  rex := rex? op.wide op.byteRegs reg rm
  opcode := op.code

/-- The parts of an instruction with a ModRM byte. -/
def parts : Parts where
  head := op.head reg rm
  modrm := some (rm.modrm reg)
  sib := rm.sib
  disp := rm.disp
  imm := imm

/-- The prefixes that choose among operations; none of them is about
addresses. -/
def ownPrefixes : List UInt8 := [0x66, 0xF0, 0xF2, 0xF3]

/-- An opcode of the map with a ModRM byte, and prefixes of its own. -/
structure Listed (field : ImmField) : Prop where
  bytes : op.bytes = op.code.bytes
  entry : op.code.form? = some ⟨true, field⟩
  leading : op.leading ⊆ ownPrefixes

instance (field : ImmField) : Decidable (op.Listed field) :=
  decidable_of_iff (op.bytes = op.code.bytes ∧ op.code.form? = some ⟨true, field⟩
      ∧ op.leading ⊆ ownPrefixes)
    ⟨fun h => ⟨h.1, h.2.1, h.2.2⟩, fun h => ⟨h.bytes, h.entry, h.leading⟩⟩

variable {op} {field : ImmField}

theorem Listed.parts_bytes (h : op.Listed field) :
    (op.parts reg rm imm).bytes = op.encode reg rm ++ imm := by
  simp only [parts, Parts.bytes, head, Head.bytes, encode, rex?_toList, RegMem.operandBytes_eq,
    h.bytes, Option.toList_some, List.append_assoc, List.cons_append, List.nil_append]

-- the four bits of the REX byte

@[simp] theorem head_wide : (op.head reg rm).wide = op.wide :=
  (rex?_bit (by decide)).trans (rexByte_bits op.wide reg rm).2.1

theorem head_rexBit_reg : (op.head reg rm).rexBit 2 = decide (8 ≤ reg) :=
  (rex?_bit (by decide)).trans (rexByte_bits op.wide reg rm).2.2.1

theorem head_rexBit_index : (op.head reg rm).rexBit 1 = false :=
  (rex?_bit (by decide)).trans (rexByte_bits op.wide reg rm).2.2.2.1

theorem head_rexBit_rm : (op.head reg rm).rexBit 0 = rm.extended :=
  (rex?_bit (by decide)).trans (rexByte_bits op.wide reg rm).2.2.2.2

/-- Segment overrides aside, the legacy prefixes are the opcode's own. -/
theorem mem_legacy {b : UInt8} (hb : b ≠ 0x65) :
    b ∈ (op.head reg rm).legacy ↔ b ∈ op.leading := by
  have hsegment : b ∉ segmentBytes rm := by
    unfold segmentBytes
    split
    · simpa using hb
    · simp
  simp [head, hsegment]

/-- Without a prefix of its own an operation has operands of at least four
bytes. -/
theorem four_le_operandBytes (h : op.leading = []) : 4 ≤ (op.head reg rm).operandBytes := by
  have hsize : 0x66 ∉ (op.head reg rm).legacy := by
    rw [mem_legacy reg rm (by decide), h]
    exact List.not_mem_nil
  unfold Head.operandBytes
  rw [if_neg hsize]
  split <;> decide

namespace Listed

theorem head_valid (h : op.Listed field) : (op.head reg rm).Valid true := by
  refine .of_entry h.entry (fun b hb => ?_) fun b hb => ⟨rfl, ?_⟩
  · have hown : ownPrefixes ⊆ legacyPrefixes := by decide
    by_cases hgs : b = 0x65
    · rw [hgs]
      decide
    · exact hown (h.leading ((mem_legacy reg rm hgs).mp hb))
  · exact isRexPrefix_of_rex? hb

/-- An instruction is encoded by its parts if its immediate has the length
that the opcode asks for. -/
theorem encodes (h : op.Listed field)
    (himm : field.bytes? true (op.head reg rm) (some (rm.modrm reg)) = some imm.length) :
    (op.parts reg rm imm).Encodes (op.encode reg rm ++ imm) where
  bytes := h.parts_bytes reg rm imm
  wellFormed := ⟨⟨true, field⟩, h.head_valid reg rm, h.entry, rfl, rm.sib_isSome reg,
    rm.disp_length reg, himm⟩

theorem encodes_plain (h : op.Listed .none) : (op.parts reg rm []).Encodes (op.encode reg rm) := by
  have := h.encodes reg rm [] rfl
  rwa [List.append_nil] at this

theorem encodes_byte (h : op.Listed .byte) (b : UInt8) :
    (op.parts reg rm [b]).Encodes (op.encode reg rm ++ [b]) :=
  h.encodes reg rm [b] rfl

/-- An immediate of an operation's own width has four bytes. -/
theorem encodes_operand (h : op.Listed .operand) (hown : op.leading = []) (v : Nat) :
    (op.parts reg rm (littleEndian 4 v)).Encodes (op.encode reg rm ++ littleEndian 4 v) := by
  refine h.encodes reg rm _ ?_
  rw [ImmField.bytes?, Nat.min_eq_left (four_le_operandBytes reg rm hown), littleEndian_length]

theorem encodes_test (h : op.Listed (.ofTest .operand)) (hown : op.leading = []) (v : Nat) :
    (op.parts 0 rm (littleEndian 4 v)).Encodes (op.encode 0 rm ++ littleEndian 4 v) := by
  refine h.encodes 0 rm _ ?_
  simp only [ImmField.bytes?, Option.map_some, RegMem.middle_modrm]
  exact congrArg some ((Nat.min_eq_left (four_le_operandBytes 0 rm hown)).trans
    (littleEndian_length 4 v).symm)

end Listed

end Opcode

-- ======================================================== instructions

/-- The parts of an instruction with its register in the opcode byte. -/
def shortParts (opcode : UInt8) (wide : Bool) (reg : Reg) (imm : List UInt8) : Parts where
  head :=
    { legacy := []
      rex := rex? wide false 0 (.reg reg.number)
      opcode := ⟨false, opcode + reg.code⟩ }
  modrm := none
  sib := none
  disp := []
  imm := imm

/-- The parts of an operation with the shortest immediate. -/
def immediateParts (wide : Bool) (extension : UInt8) (rm : RegMem) (imm : Int32) : Parts :=
  if isShort imm then
    Opcode.parts { bytes := [0x83], wide } extension rm [shortByte imm]
  else
    Opcode.parts { bytes := [0x81], wide } extension rm (littleEndian 4 imm.toUInt32.toNat)

/-- The parts of an instruction without operands, or with nothing but an
immediate. -/
def bareParts (opcode : OpByte) (imm : List UInt8) : Parts where
  head := ⟨[], none, opcode⟩
  modrm := none
  sib := none
  disp := []
  imm := imm

/-- What a register with its number in the opcode byte leaves to the REX
byte. -/
theorem rexBytes_short (wide : Bool) (reg : Reg) :
    rexBytes wide false 0 (.reg reg.number)
      = if wide then [0x48 ||| (if reg.isExtended then 1 else 0)]
        else if reg.isExtended then [0x41] else [] := by
  obtain ⟨r⟩ := reg
  revert wide r
  decide

/-- The eight opcodes of a row with a register in them share their entry. -/
theorem primaryForm?_row {opcode : UInt8} {form : Form} (reg : Reg)
    (hrow : ∀ n < 8, primaryForm? (opcode + UInt8.ofNat n).toNat = some form) :
    primaryForm? (opcode + reg.code).toNat = some form := by
  rw [reg.code_eq_ofNat]
  exact hrow _ (Nat.mod_lt _ (by decide))

theorem shortParts_encodes {opcode : UInt8} {wide : Bool} {reg : Reg} {imm : List UInt8}
    {field : ImmField}
    (hrow : ∀ n < 8, primaryForm? (opcode + UInt8.ofNat n).toNat = some ⟨false, field⟩)
    (himm : field.bytes? true (shortParts opcode wide reg imm).head none = some imm.length) :
    (shortParts opcode wide reg imm).Encodes
      (rexBytes wide false 0 (.reg reg.number) ++ (opcode + reg.code) :: imm) where
  bytes := by
    simp only [shortParts, Parts.bytes, Head.bytes, rex?_toList, OpByte.bytes]
    simp
  wellFormed := by
    have hentry := primaryForm?_row reg hrow
    refine ⟨⟨false, field⟩, .of_entry hentry (fun _ hb => absurd hb List.not_mem_nil)
      fun _ hb => ⟨rfl, ?_⟩, hentry, rfl, rfl, rfl, himm⟩
    exact isRexPrefix_of_rex? hb

theorem shortParts_wide (opcode : UInt8) (wide : Bool) (reg : Reg) (imm : List UInt8) :
    (shortParts opcode wide reg imm).head.wide = wide :=
  (rex?_bit (by decide)).trans (rexByte_bits wide 0 (.reg reg.number)).2.1

/-- A constant is as wide as the register it is loaded into. -/
theorem shortParts_constant_encodes (wide : Bool) (reg : Reg) (v : Nat) :
    (shortParts 0xB8 wide reg (littleEndian (if wide then 8 else 4) v)).Encodes
      (rexBytes wide false 0 (.reg reg.number)
        ++ (0xB8 + reg.code) :: littleEndian (if wide then 8 else 4) v) := by
  have hrow : ∀ n < 8, primaryForm? (0xB8 + UInt8.ofNat n).toNat = some ⟨false, .whole⟩ := by
    decide
  refine shortParts_encodes hrow ?_
  rw [ImmField.bytes?, Head.operandBytes, shortParts_wide, littleEndian_length]
  rfl

theorem shortForm_encodes {opcode : UInt8} (reg : Reg)
    (hrow : ∀ n < 8, primaryForm? (opcode + UInt8.ofNat n).toNat = some ⟨false, .none⟩) :
    (shortParts opcode false reg []).Encodes (shortForm opcode reg) := by
  have hparts : (shortParts opcode false reg []).Encodes _ := shortParts_encodes hrow rfl
  rwa [rexBytes_short] at hparts

theorem bareParts_encodes {opcode : OpByte} {imm : List UInt8} (field : ImmField)
    (hentry : opcode.form? = some ⟨false, field⟩)
    (himm : field.bytes? true ⟨[], none, opcode⟩ none = some imm.length) :
    (bareParts opcode imm).Encodes (opcode.bytes ++ imm) where
  bytes := rfl
  wellFormed := ⟨⟨false, field⟩, .of_entry hentry (fun _ hb => nomatch hb) (fun _ hb => nomatch hb),
    hentry, rfl, rfl, rfl, himm⟩

theorem immediateParts_encodes (wide : Bool) (extension : UInt8) (rm : RegMem) (imm : Int32) :
    (immediateParts wide extension rm imm).Encodes (immediateForm wide extension rm imm) := by
  unfold immediateParts immediateForm
  split
  · exact Opcode.Listed.encodes_byte _ _ (by cases wide <;> decide) _
  · exact Opcode.Listed.encodes_operand _ _ (by cases wide <;> decide) rfl _

namespace Instr

/-- The parts of an encoded instruction. -/
def parts : Instr → Parts
  | push reg => shortParts 0x50 false reg []
  | pop reg => shortParts 0x58 false reg []
  | moveQuad dst src =>
      Opcode.parts { bytes := [0x89], wide := true } src.number (.reg dst.number) []
  | moveLong dst src => Opcode.parts { bytes := [0x89] } src.number (.reg dst.number) []
  | load width dst mem => (loadOpcode width).parts dst.number (.mem mem) []
  | store width mem src => (storeOpcode width).parts src.number (.mem mem) []
  | storeImm mem imm =>
      Opcode.parts { bytes := [0xC7], wide := true } 0 (.mem mem)
        (littleEndian 4 imm.toUInt32.toNat)
  | loadImm dst imm =>
      if imm ≤ 0xFFFFFFFF then shortParts 0xB8 false dst (littleEndian 4 imm.toNat)
      else shortParts 0xB8 true dst (littleEndian 8 imm.toNat)
  | lea dst mem => Opcode.parts { bytes := [0x8D], wide := true } dst.number (.mem mem) []
  | signExtendByte dst src =>
      Opcode.parts { bytes := [0x0F, 0xBE], wide := true, byteRegs := true } dst.number
        (.reg src.number) []
  | signExtendWord dst src =>
      Opcode.parts { bytes := [0x0F, 0xBF], wide := true } dst.number (.reg src.number) []
  | zeroExtendByte dst src =>
      Opcode.parts { bytes := [0x0F, 0xB6], byteRegs := true } dst.number (.reg src.number) []
  | zeroExtendWord dst src =>
      Opcode.parts { bytes := [0x0F, 0xB7] } dst.number (.reg src.number) []
  | loadScalar scalar dst mem =>
      Opcode.parts { bytes := [0x0F, 0x10], leading := [scalarByte scalar] } dst.number
        (.mem mem) []
  | storeScalar scalar mem src =>
      Opcode.parts { bytes := [0x0F, 0x11], leading := [scalarByte scalar] } src.number
        (.mem mem) []
  | moveXmm dst src => Opcode.parts { bytes := [0x0F, 0x28] } dst.number (.reg src.number) []
  | arith op dst imm => immediateParts true op.extension (.reg dst.number) imm
  | xor dst src => Opcode.parts { bytes := [0x31] } src.number (.reg dst.number) []
  | testReg a b => Opcode.parts { bytes := [0x85] } b.number (.reg a.number) []
  | testImm reg imm =>
      Opcode.parts { bytes := [0xF7] } 0 (.reg reg.number) (littleEndian 4 imm.toNat)
  | testMemImm mem imm => Opcode.parts { bytes := [0xF7] } 0 (.mem mem) (littleEndian 4 imm.toNat)
  | testMem reg mem => Opcode.parts { bytes := [0x85] } reg.number (.mem mem) []
  | compareLong mem imm => immediateParts false 7 (.mem mem) imm
  | compareByte mem imm => Opcode.parts { bytes := [0x80] } 7 (.mem mem) [imm]
  | lockCompareExchange mem src =>
      Opcode.parts { bytes := [0x0F, 0xB1], leading := [0xF0] } src.number (.mem mem) []
  | jump _ => bareParts ⟨false, 0xE9⟩ [0, 0, 0, 0]
  | jumpIf cond _ => bareParts ⟨true, 0x80 + UInt8.ofNat cond.code⟩ [0, 0, 0, 0]
  | jumpMem mem => Opcode.parts { bytes := [0xFF] } 4 (.mem mem) []
  | callMem mem => Opcode.parts { bytes := [0xFF] } 2 (.mem mem) []
  | ret => bareParts ⟨false, 0xC3⟩ []
  | breakpoint => bareParts ⟨false, 0xCC⟩ []

theorem loadImm_encodes (dst : Reg) (imm : UInt64) :
    (loadImm dst imm).parts.Encodes (loadImm dst imm).bytes := by
  by_cases himm : imm ≤ 0xFFFFFFFF
  · have hparts := shortParts_constant_encodes false dst imm.toNat
    rw [rexBytes_short] at hparts
    simpa [parts, bytes, shortForm, himm] using hparts
  · have hparts := shortParts_constant_encodes true dst imm.toNat
    rw [rexBytes_short] at hparts
    simpa [parts, bytes, himm] using hparts

theorem jumpIf_entry (cond : Cond) :
    (⟨true, 0x80 + UInt8.ofNat cond.code⟩ : OpByte).form? = some ⟨false, .near⟩ := by
  obtain ⟨c⟩ := cond
  revert c
  decide

/-- An instruction is encoded by its parts. -/
theorem parts_encodes (i : Instr) : i.parts.Encodes i.bytes := by
  cases i with
  | push reg => exact shortForm_encodes reg (by decide)
  | pop reg => exact shortForm_encodes reg (by decide)
  | load width dst mem => cases width <;> exact Opcode.Listed.encodes_plain _ _ (by decide)
  | store width mem src => cases width <;> exact Opcode.Listed.encodes_plain _ _ (by decide)
  | storeImm mem imm => exact Opcode.Listed.encodes_operand _ _ (by decide) rfl _
  | loadImm dst imm => exact loadImm_encodes dst imm
  | loadScalar scalar dst mem =>
      cases scalar <;> exact Opcode.Listed.encodes_plain _ _ (by decide)
  | storeScalar scalar mem src =>
      cases scalar <;> exact Opcode.Listed.encodes_plain _ _ (by decide)
  | arith op dst imm => exact immediateParts_encodes _ _ _ _
  | compareLong mem imm => exact immediateParts_encodes _ _ _ _
  | testImm reg imm => exact Opcode.Listed.encodes_test _ (by decide) rfl _
  | testMemImm mem imm => exact Opcode.Listed.encodes_test _ (by decide) rfl _
  | compareByte mem imm => exact Opcode.Listed.encodes_byte _ _ (by decide) _
  | jump label => exact bareParts_encodes .near rfl rfl
  | jumpIf cond label => exact bareParts_encodes .near (jumpIf_entry cond) rfl
  | ret => exact bareParts_encodes .none rfl rfl
  | breakpoint => exact bareParts_encodes .none rfl rfl
  | _ => exact Opcode.Listed.encodes_plain _ _ (by decide)

end Instr

end Crossing.X86
