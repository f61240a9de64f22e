import Crossing.Proofs.X86.Encoding
import Crossing.Proofs.X86.Length

/-
The length of what the encoder emits. An encoded instruction is well formed,
so the architecture's length is that of its bytes; the computed length can
only be different if the instruction is misread. None with a base register
is: where its code is the one that stands for no base, the encoder spends a
displacement on it. So the length is right or, for instructions that no
fault is recovered from, zero.
-/
namespace Crossing.X86

open Code Format

/-- Parts whose length comes out right if it comes out at all. -/
structure Format.Parts.Measurable (p : Parts) : Prop where
  plain : p.modrm = none → known? p.head.opcode = none
  modrm : ∀ m, p.modrm = some m → ∀ field, ¬ Misread true p.head ⟨true, field⟩ m p.sib

/-- The address part of a well-formed instruction. -/
theorem addressSize_of_wellFormed {is64 : Bool} {form : Form} {p : Parts} {m : UInt8}
    (hp : WellFormed is64 form p) (hm : p.modrm = some m) :
    addressSize (p.head.shortAddress is64) m p.sib = p.sib.toList.length + p.disp.length := by
  have hsib := hp.sib
  have hdisp := hp.disp
  rw [hm] at hsib hdisp
  rw [addressSize, ← hsib, ← hdisp]
  cases p.sib <;> rfl

/-- A known opcode in front of a ModRM byte is listed with what it is known
for. -/
theorem form_of_known {is64 : Bool} {form : Form} {p : Parts} {m : UInt8} {f : Immediate}
    (hp : WellFormed is64 form p) (hm : p.modrm = some m) (hknown : known? p.head.opcode = some f) :
    form = ⟨true, f.field⟩ := by
  have hentry := hp.entry
  have hmodrm := hp.modrm
  rw [hm] at hmodrm
  obtain hform | ⟨-, haccumulator⟩ := form?_of_known hknown
  · rw [hform] at hentry
    exact (Option.some.inj hentry).symm
  · obtain hcode | hcode := haccumulator <;>
    · rw [hcode] at hentry
      cases hentry
      cases hmodrm

/-- A known instruction has the length of its parts, whatever follows
them. -/
theorem instructionLength_of_modrm {p : Parts} {form : Form} {m : UInt8} {f : Immediate}
    (hp : WellFormed true form p) (hm : p.modrm = some m) (hknown : known? p.head.opcode = some f)
    (hread : ∀ field, ¬ Misread true p.head ⟨true, field⟩ m p.sib) (rest : List UInt8) :
    instructionLength (p.bytes ++ rest) true = p.length := by
  obtain rfl := form_of_known hp hm hknown
  have himm := hp.imm
  rw [hm] at himm
  obtain ⟨k, hk⟩ := Immediate.bytes_isSome (decide (0x66 ∈ p.head.legacy)) (by rw [himm]; rfl)
  -- what is announced is what is there
  have hsize : announced m + k = p.sib.toList.length + p.disp.length + p.imm.length := by
    have hagree := (sizes_agree_iff k hp.head.narrow).mpr (hread f.field)
    rw [f.bytes?_field hk] at himm
    rw [addressSize_of_wellFormed hp hm, Option.some.inj himm] at hagree
    exact hagree.symm
  have hbytes : p.bytes ++ rest
      = p.head.bytes ++ m :: (p.sib.toList ++ (p.disp ++ (p.imm ++ rest))) := by
    simp [Parts.bytes, hm]
  have hhead := head?_bytes hp.head (m :: (p.sib.toList ++ (p.disp ++ (p.imm ++ rest))))
  rw [← hbytes] at hhead
  rw [instructionLength_of_known hhead hknown hk (by simp only [List.length_append]; omega), hsize,
    Parts.length, Parts.bytes, hm]
  simp only [List.length_append, Option.toList_some, List.length_singleton]
  omega

/-- The length of an encoded instruction: all of it, or nothing. -/
theorem instructionLength_encoded {p : Parts} {code : List UInt8} (hp : p.Encodes code)
    (hm : p.Measurable) (rest : List UInt8) :
    instructionLength (code ++ rest) true
      = if (known? p.head.opcode).isSome then code.length else 0 := by
  obtain ⟨rfl, form, hw⟩ := hp
  cases hknown : known? p.head.opcode with
  | none =>
      have hhead := head?_bytes hw.head
        (p.modrm.toList ++ (p.sib.toList ++ (p.disp ++ p.imm)) ++ rest)
      rw [← List.append_assoc] at hhead
      exact instructionLength_of_unknown hhead hknown
  | some f =>
      cases hmodrm : p.modrm with
      | none =>
          rw [hm.plain hmodrm] at hknown
          cases hknown
      | some m => exact instructionLength_of_modrm hw hmodrm hknown (hm.modrm m hmodrm) rest

-- ======================================================== instructions

theorem Opcode.measurable {op : Opcode} {reg : UInt8} {rm : RegMem} {imm : List UInt8}
    (hrm : ∀ address, rm ≠ .mem (.gs address)) (hsize : op.wide = true → 0x66 ∉ op.leading) :
    (op.parts reg rm imm).Measurable where
  plain h := nomatch h
  modrm m hm field := by
    cases hm
    rintro (⟨-, -, hmode, hbase⟩ | ⟨-, -, hoverride, hwide⟩ | ⟨-, hshort, -⟩ | ⟨hmodrm, -⟩)
    · cases rm with
      | reg r =>
          rw [RegMem.modrm, high_modRM] at hmode
          cases hmode
      | mem a =>
          cases a with
          | gs address => exact hrm address rfl
          | base base disp =>
              exact RegMem.base_of_mode_zero reg hmode
                ((RegMem.baseField_base reg base disp).symm.trans hbase)
    · rw [show (op.parts reg rm imm).head = op.head reg rm from rfl] at hoverride hwide
      rw [head_wide] at hwide
      exact hsize hwide ((mem_legacy reg rm (by decide)).mp hoverride)
    · cases hshort
    · cases hmodrm

namespace Instr

/-- The memory operand of an instruction, if it has one. -/
def mem? : Instr → Option Mem
  | load _ _ mem | store _ mem _ | storeImm mem _ | lea _ mem | loadScalar _ _ mem
  | storeScalar _ mem _ | testMemImm mem _ | testMem _ mem | compareLong mem _
  | compareByte mem _ | lockCompareExchange mem _ | jumpMem mem | callMem mem => some mem
  | _ => none

/-- Loads and stores, compares and tests. -/
def isAccess : Instr → Bool
  | load .. | store .. | storeImm .. | loadScalar .. | storeScalar .. | compareLong ..
  | compareByte .. | testMemImm .. | testMem .. | testReg .. | testImm .. => true
  | _ => false

/-- The opcodes with a register in them are not known. -/
theorem shortParts_measurable {opcode : UInt8} {wide : Bool} {reg : Reg} {imm : List UInt8}
    (hrow : ∀ n < 8, known? ⟨false, opcode + UInt8.ofNat n⟩ = none) :
    (shortParts opcode wide reg imm).Measurable where
  plain _ := by
    show known? ⟨false, opcode + reg.code⟩ = none
    rw [reg.code_eq_ofNat]
    exact hrow _ (Nat.mod_lt _ (by decide))
  modrm _ h := nomatch h

theorem immediateParts_measurable {wide : Bool} {extension : UInt8} {rm : RegMem} {imm : Int32}
    (hrm : ∀ address, rm ≠ .mem (.gs address)) :
    (immediateParts wide extension rm imm).Measurable := by
  unfold immediateParts
  split
  · exact Opcode.measurable hrm fun _ => List.not_mem_nil
  · exact Opcode.measurable hrm fun _ => List.not_mem_nil

theorem bareParts_measurable {opcode : OpByte} {imm : List UInt8} (h : known? opcode = none) :
    (bareParts opcode imm).Measurable where
  plain _ := h
  modrm _ h := nomatch h

theorem jumpIf_unknown (cond : Cond) : known? ⟨true, 0x80 + UInt8.ofNat cond.code⟩ = none := by
  obtain ⟨c⟩ := cond
  revert c
  decide

/-- With a base register for every address, an instruction is not
misread. -/
theorem parts_measurable (i : Instr)
    (hmem : ∀ mem, i.mem? = some mem → ∃ base disp, mem = .base base disp) :
    i.parts.Measurable := by
  have hrm : ∀ mem, i.mem? = some mem → ∀ address, RegMem.mem mem ≠ .mem (.gs address) := by
    rintro mem hi address ⟨⟩
    obtain ⟨base, disp, h⟩ := hmem _ hi
    cases h
  cases i with
  | push reg => exact shortParts_measurable (by decide)
  | pop reg => exact shortParts_measurable (by decide)
  | load width dst mem => exact Opcode.measurable (hrm mem rfl) (by cases width <;> decide)
  | store width mem src => exact Opcode.measurable (hrm mem rfl) (by cases width <;> decide)
  | storeImm mem imm => exact Opcode.measurable (hrm mem rfl) (by decide)
  | loadImm dst imm =>
      unfold parts
      dsimp only
      split
      · exact shortParts_measurable (by decide)
      · exact shortParts_measurable (by decide)
  | lea dst mem => exact Opcode.measurable (hrm mem rfl) (by decide)
  | loadScalar scalar dst mem =>
      exact Opcode.measurable (hrm mem rfl) (fun h => nomatch h)
  | storeScalar scalar mem src =>
      exact Opcode.measurable (hrm mem rfl) (fun h => nomatch h)
  | arith op dst imm => exact immediateParts_measurable (fun _ h => nomatch h)
  | testMemImm mem imm => exact Opcode.measurable (hrm mem rfl) (by decide)
  | testMem reg mem => exact Opcode.measurable (hrm mem rfl) (by decide)
  | compareLong mem imm => exact immediateParts_measurable (hrm mem rfl)
  | compareByte mem imm => exact Opcode.measurable (hrm mem rfl) (by decide)
  | lockCompareExchange mem src => exact Opcode.measurable (hrm mem rfl) (by decide)
  | jump label => exact bareParts_measurable rfl
  | jumpIf cond label => exact bareParts_measurable (jumpIf_unknown cond)
  | jumpMem mem => exact Opcode.measurable (hrm mem rfl) (by decide)
  | callMem mem => exact Opcode.measurable (hrm mem rfl) (by decide)
  | ret => exact bareParts_measurable rfl
  | breakpoint => exact bareParts_measurable rfl
  | _ => exact Opcode.measurable (fun _ h => nomatch h) (by decide)

/-- Loads and stores, compares and tests are known. -/
theorem known_of_isAccess {i : Instr} (h : i.isAccess = true) :
    (known? i.parts.head.opcode).isSome = true := by
  cases i with
  | load width dst mem => cases width <;> rfl
  | store width mem src => cases width <;> rfl
  | compareLong mem imm =>
      show (known? (immediateParts _ _ _ _).head.opcode).isSome = true
      unfold immediateParts
      split <;> rfl
  | storeImm mem imm => rfl
  | loadScalar scalar dst mem => rfl
  | storeScalar scalar mem src => rfl
  | testReg a b => rfl
  | testImm reg imm => rfl
  | testMemImm mem imm => rfl
  | testMem reg mem => rfl
  | compareByte mem imm => rfl
  | _ => cases h

/-- The length computed for an encoded instruction is zero or right,
whatever follows it; for loads and stores, compares and tests it is right.
Memory is reached through a base register here. -/
theorem instructionLength_bytes (i : Instr)
    (hmem : ∀ mem, i.mem? = some mem → ∃ base disp, mem = .base base disp) (rest : List UInt8) :
    (instructionLength (i.bytes ++ rest) true = 0
        ∨ instructionLength (i.bytes ++ rest) true = i.bytes.length)
      ∧ (i.isAccess = true → instructionLength (i.bytes ++ rest) true = i.bytes.length) := by
  have hlength := instructionLength_encoded i.parts_encodes (i.parts_measurable hmem) rest
  constructor
  · rw [hlength]
    split
    · exact .inr rfl
    · exact .inl rfl
  · intro haccess
    rw [hlength, if_pos (known_of_isAccess haccess)]

/-- A store through `r12`, which needs a SIB byte, with a displacement of
four bytes. -/
theorem instructionLength_bytes_store :
    (∀ mem, (store .word (.base .r12 0x200) .r9).mem? = some mem →
        ∃ base disp, mem = .base base disp)
      ∧ instructionLength ((store .word (.base .r12 0x200) .r9).bytes ++ [0xC3]) true
        = (store .word (.base .r12 0x200) .r9).bytes.length := by
  have hmem : ∀ mem, (store .word (.base .r12 0x200) .r9).mem? = some mem →
      ∃ base disp, mem = .base base disp := by
    rintro mem ⟨⟩
    exact ⟨_, _, rfl⟩
  exact ⟨hmem, (instructionLength_bytes _ hmem _).2 rfl⟩

end Instr

end Crossing.X86
