import Crossing.Proofs.Processor.Basic
import Crossing.Register.View
import Crossing.X86.Instr

/-
What x86-64 instructions do, as far as the transitions between managed and
native code and the decoding of handles need them. Of the flags only the
zero flag is kept, and an instruction or a condition that is not listed has
no meaning here, so that nothing can be proved about code that uses it.
-/
namespace Crossing.X86

open Glue

theorem x86View_of_cpu {reg : Register} {r : Reg} (h : reg.cpu = .ok r) :
    reg.x86View = .ok (.cpu r) := by
  unfold Register.cpu at h
  cases hview : reg.x86View with
  | error v => rw [hview] at h; cases h
  | ok view =>
      rw [hview] at h
      cases view with
      | cpu q => cases h; rfl
      | _ => cases h

structure Cpu where
  reg : Reg → UInt64
  xmm : Fin 16 → BitVec 128
  zeroFlag : Bool
  /-- Where the `gs` segment begins. -/
  gs : UInt64
  memory : Memory

namespace Cpu

def set (s : Cpu) (r : Reg) (v : UInt64) : Cpu :=
  { s with reg := fun q => if q = r then v else s.reg q }

def address (s : Cpu) : Mem → UInt64
  | .base base disp => s.reg base + disp.toInt64.toUInt64
  | .gs address => s.gs + address.toInt32.toInt64.toUInt64

/-- What the register that a handle names holds; no register holds zero. -/
def content (s : Cpu) (r : Register) : Nat :=
  match r.x86View with
  | .ok (.cpu reg) => (s.reg reg).toNat
  | .ok (.xmm n) => (s.xmm n).toNat
  | _ => 0

end Cpu

/-- Whether a condition holds. -/
def Cond.holds? (c : Cond) (s : Cpu) : Option Bool :=
  if c = .zero then some s.zeroFlag
  else if c = .notZero then some !s.zeroFlag
  else none

/-- The effect of an instruction. -/
def exec : Instr → Cpu → Option (Effect Cpu)
  | .moveQuad dst src, s => some (.next (s.set dst (s.reg src)))
  | .load .quad dst mem, s => some (.next (s.set dst (s.memory.read64 (s.address mem))))
  | .load .long dst mem, s =>
      some (.next (s.set dst (s.memory.read32 (s.address mem)).toUInt64))
  | .store .quad mem src, s =>
      some (.next { s with memory := s.memory.write64 (s.address mem) (s.reg src) })
  | .storeImm mem imm, s =>
      some (.next { s with memory := s.memory.write64 (s.address mem) imm.toInt64.toUInt64 })
  | .loadImm dst imm, s => some (.next (s.set dst imm))
  | .xor dst src, s =>
      let v := (s.reg dst).toUInt32 ^^^ (s.reg src).toUInt32
      some (.next { s.set dst v.toUInt64 with zeroFlag := v = 0 })
  | .arith .and dst imm, s =>
      let v := s.reg dst &&& imm.toInt64.toUInt64
      some (.next { s.set dst v with zeroFlag := v = 0 })
  | .testImm reg imm, s => some (.next { s with zeroFlag := (s.reg reg).toUInt32 &&& imm = 0 })
  | .lockCompareExchange mem src, s =>
      let seen := s.memory.read32 (s.address mem)
      -- a value that differs is loaded, and with it the upper half is cleared
      if (s.reg .rax).toUInt32 = seen then
        some (.next { s with
          memory := s.memory.write32 (s.address mem) (s.reg src).toUInt32, zeroFlag := true })
      else some (.next { s.set .rax seen.toUInt64 with zeroFlag := false })
  | .jumpIf cond label, s =>
      (cond.holds? s).map fun taken => if taken then .branch label s else .next s
  | _, _ => none

section Exec

-- the equations of `exec` are many and are derived once, here
attribute [local simp] exec

variable {s : Cpu} {mem : Mem} {src r : Reg} {label : Nat}

/-- A register is cleared by its difference with itself. -/
theorem exec_clear : exec (.xor r r) s = some (.next { s.set r 0 with zeroFlag := true }) := by
  simp

theorem exec_exchange (h : (s.reg .rax).toUInt32 = s.memory.read32 (s.address mem)) :
    exec (.lockCompareExchange mem src) s = some (.next { s with
      memory := s.memory.write32 (s.address mem) (s.reg src).toUInt32, zeroFlag := true }) := by
  simp only [exec]
  rw [if_pos h]

theorem exec_compare (h : (s.reg .rax).toUInt32 ≠ s.memory.read32 (s.address mem)) :
    exec (.lockCompareExchange mem src) s = some (.next
      { s.set .rax (s.memory.read32 (s.address mem)).toUInt64 with zeroFlag := false }) := by
  simp only [exec]
  rw [if_neg h]

theorem exec_jumpNotZero_of_zero (h : s.zeroFlag = true) :
    exec (.jumpIf .notZero label) s = some (.next s) := by
  simp [Cond.holds?, Cond.zero, Cond.notZero, h]

theorem exec_jumpNotZero (h : s.zeroFlag = false) :
    exec (.jumpIf .notZero label) s = some (.branch label s) := by
  simp [Cond.holds?, Cond.zero, Cond.notZero, h]

theorem exec_jumpZero_of_zero (h : s.zeroFlag = true) :
    exec (.jumpIf .zero label) s = some (.branch label s) := by
  simp [Cond.holds?, h]

theorem exec_jumpZero (h : s.zeroFlag = false) :
    exec (.jumpIf .zero label) s = some (.next s) := by
  simp [Cond.holds?, h]

end Exec

end Crossing.X86
