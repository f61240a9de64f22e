import Crossing.A64.Instr
import Crossing.Proofs.Processor.Basic
import Crossing.Register.View

/-
What ARM64 instructions do, as far as the transitions between managed and
native code and the decoding of handles need them. Register 31 is the stack
pointer as a base and zero as an operand. A store-exclusive succeeds only if
the monitor was set by the load before it, and may fail without cause a
number of times, but not forever: `failures` is how often it still will.
-/
namespace Crossing.A64

open Glue

structure Cpu where
  x : Reg → UInt64
  v : Fin 32 → BitVec 128
  zeroFlag : Bool
  /-- The address that exclusive accesses are watched at. -/
  monitor : Option UInt64
  /-- Store-exclusives that are still to fail without cause. -/
  failures : Nat
  memory : Memory

namespace Cpu

variable {s : Cpu} {r q : Reg} {v : UInt64}

/-- A register as an operand. -/
def operand (s : Cpu) (r : Reg) : UInt64 := if r = .zero then 0 else s.x r

/-- Register 31 cannot be set. -/
def set (s : Cpu) (r : Reg) (v : UInt64) : Cpu :=
  { s with x := fun q => if q = r ∧ r ≠ .zero then v else s.x q }

@[simp] theorem set_x : (s.set r v).x q = if q = r ∧ r ≠ .zero then v else s.x q := rfl

/-- What the register that a handle names holds; no register holds zero. -/
def content (s : Cpu) (r : Register) : Nat :=
  match r.a64View with
  | .ok (.x reg) | .ok (.w reg) => (s.x reg).toNat
  | .ok (.d n) | .ok (.s n) => (s.v n).toNat
  | _ => 0

/-- Stores 32 bits if the monitor allows it; the status says whether it
did. -/
def storeExclusive (s : Cpu) (status rt rn : Reg) : Cpu :=
  if s.monitor ≠ some (s.x rn) then { s.set status 1 with monitor := none }
  else
    match s.failures with
    | 0 =>
        { s.set status 0 with
          monitor := none, memory := s.memory.write32 (s.x rn) (s.operand rt).toUInt32 }
    | n + 1 => { s.set status 1 with monitor := none, failures := n }

end Cpu

def Cond.holds? (c : Cond) (s : Cpu) : Option Bool :=
  if c = .eq then some s.zeroFlag
  else if c = .ne then some !s.zeroFlag
  else none

/-- Whether a register is zero in one of its widths. -/
def isZero (s : Cpu) (rt : Reg) (is64 : Bool) : Bool :=
  if is64 then s.operand rt = 0 else (s.operand rt).toUInt32 = 0

/-- The effect of an instruction. -/
def exec : Instr → Cpu → Option (Effect Cpu)
  | .movzW rd imm hw, s => some (.next (s.set rd (imm.toUInt32 <<< UInt32.ofNat (16 * hw)).toUInt64))
  | .cmpW rn rm, s =>
      some (.next { s with zeroFlag := (s.operand rn).toUInt32 = (s.operand rm).toUInt32 })
  | .tstBit rn bit, s => some (.next { s with zeroFlag := !(s.operand rn).toNat.testBit bit })
  | .clearLow rd rn bits, s =>
      -- register 31 would be the stack pointer here
      if rd = .zero then none
      else
        let count := UInt64.ofNat bits.count
        some (.next (s.set rd (s.operand rn >>> count <<< count)))
  | .strX rt rn offset, s =>
      some (.next { s with
        memory := s.memory.write64 (s.x rn + UInt64.ofNat offset.offset) (s.operand rt) })
  | .ldrX rt rn offset, s =>
      some (.next (s.set rt (s.memory.read64 (s.x rn + UInt64.ofNat offset.offset))))
  | .ldrW rt rn offset, s =>
      let word := s.memory.read32 (s.x rn + UInt64.ofNat offset.offset)
      some (.next (s.set rt word.toUInt64))
  | .ldaxr rt rn, s =>
      some (.next { s.set rt (s.memory.read32 (s.x rn)).toUInt64 with monitor := some (s.x rn) })
  | .stlxr rs rt rn, s | .stxr rs rt rn, s => some (.next (s.storeExclusive rs rt rn))
  | .casal rs rt rn, s =>
      let seen := s.memory.read32 (s.x rn)
      let memory := if (s.operand rs).toUInt32 = seen then
          s.memory.write32 (s.x rn) (s.operand rt).toUInt32
        else s.memory
      some (.next { s.set rs seen.toUInt64 with memory })
  | .bCond cond label, s =>
      (cond.holds? s).map fun taken => if taken then .branch label s else .next s
  | .cbz rt is64 label, s => some (if isZero s rt is64 then .branch label s else .next s)
  | .cbnz rt is64 label, s => some (if isZero s rt is64 then .next s else .branch label s)
  | _, _ => none

section Exec

-- the equations of `exec` are many and are derived once, here
attribute [local simp] exec

variable {s : Cpu} {rs rt rn : Reg} {label : Nat}

theorem exec_casal (h : s.memory.read32 (s.x rn) = (s.operand rs).toUInt32) :
    exec (.casal rs rt rn) s = some (.next { s.set rs (s.memory.read32 (s.x rn)).toUInt64 with
      memory := s.memory.write32 (s.x rn) (s.operand rt).toUInt32 }) := by
  simp only [exec]
  rw [if_pos h.symm]

theorem exec_casal_of_ne (h : s.memory.read32 (s.x rn) ≠ (s.operand rs).toUInt32) :
    exec (.casal rs rt rn) s = some (.next (s.set rs (s.memory.read32 (s.x rn)).toUInt64)) := by
  simp only [exec]
  rw [if_neg (Ne.symm h)]
  rfl

theorem exec_branchNotZero (h : (s.operand rt).toUInt32 ≠ 0) :
    exec (.cbnz rt false label) s = some (.branch label s) := by
  simp [isZero, h]

theorem exec_branchNotZero_of_zero (h : (s.operand rt).toUInt32 = 0) :
    exec (.cbnz rt false label) s = some (.next s) := by
  simp [isZero, h]

theorem exec_branchZero (h : s.operand rt = 0) :
    exec (.cbz rt true label) s = some (.branch label s) := by
  simp [isZero, h]

theorem exec_branchZero_of_ne (h : s.operand rt ≠ 0) :
    exec (.cbz rt true label) s = some (.next s) := by
  simp [isZero, h]

theorem exec_branchNotEqual (h : s.zeroFlag = false) :
    exec (.bCond .ne label) s = some (.branch label s) := by
  simp [Cond.holds?, Cond.eq, Cond.ne, h]

theorem exec_branchNotEqual_of_zero (h : s.zeroFlag = true) :
    exec (.bCond .ne label) s = some (.next s) := by
  simp [Cond.holds?, Cond.eq, Cond.ne, h]

/-- A store-exclusive right after its load is down to chance. -/
theorem exec_store {i : Instr} (hi : exec i s = some (.next (s.storeExclusive rs rt rn)))
    (hmonitor : s.monitor = some (s.x rn)) (hfailures : s.failures = 0) :
    exec i s = some (.next { s.set rs 0 with
      monitor := none, memory := s.memory.write32 (s.x rn) (s.operand rt).toUInt32 }) := by
  rw [hi]
  simp [Cpu.storeExclusive, hmonitor, hfailures]

theorem exec_store_of_failure {i : Instr} {n : Nat}
    (hi : exec i s = some (.next (s.storeExclusive rs rt rn)))
    (hmonitor : s.monitor = some (s.x rn)) (hfailures : s.failures = n + 1) :
    exec i s = some (.next { s.set rs 1 with monitor := none, failures := n }) := by
  rw [hi]
  simp [Cpu.storeExclusive, hmonitor, hfailures]

end Exec

end Crossing.A64
