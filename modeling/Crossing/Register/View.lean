import Crossing.A64.Operand
import Crossing.X86.Operand

/-
What a register handle names on each instruction set. A handle is first
looked at as a register of the set (or as no register at all), and then
asked for a register of a particular class; both questions can be refused.
-/
namespace Crossing

-- ============================================================= x86-64

namespace X86

/-- What a handle names on x86-64. -/
inductive View where
  | none
  | cpu (reg : Reg)
  | xmm (number : Fin 16)
deriving DecidableEq, Repr

/-- The handle of a general-purpose register. -/
def Reg.handle (r : Reg) : Register := ⟨r.index.val⟩

/-- The handle of an SSE register. -/
def xmmHandle (n : Fin 16) : Register := ⟨16 + n.val⟩

end X86

namespace Register

/-- Looks at a handle as a register of x86-64. -/
def x86View (r : Register) : Except Violation X86.View :=
  if r.isNone then .ok .none
  else if h : 0 ≤ r.id ∧ r.id < 16 then .ok (.cpu ⟨⟨r.id.toNat, by omega⟩⟩)
  else if h : 16 ≤ r.id ∧ r.id < 32 then .ok (.xmm ⟨r.id.toNat - 16, by omega⟩)
  else .error (.notOfClass r .x86)

/-- The general-purpose register a handle names on x86-64. -/
def cpu (r : Register) : Except Violation X86.Reg := do
  match ← r.x86View with
  | .cpu reg => return reg
  | _ => throw (.notOfClass r .cpu)

/-- The SSE register a handle names on x86-64. -/
def xmm (r : Register) : Except Violation X86.Xmm := do
  match ← r.x86View with
  | .xmm n => return ⟨UInt8.ofNat n⟩
  | _ => throw (.notOfClass r .xmm)

/-- The number of the physical register on x86-64, where a register has
one handle only. -/
def x86Place (r : Register) : Except Violation Nat := do
  match ← r.x86View with
  | .none => throw .shlOverflow
  | .cpu reg => return reg.index.val
  | .xmm n => return 16 + n.val

/-- Whether two handles share bits on x86-64. -/
def x86Overlaps (r s : Register) : Bool := r.isSome && r == s

end Register

-- ============================================================== ARM64

namespace A64

/-- What a handle names on ARM64. -/
inductive View where
  | none
  | x (reg : Reg)
  | w (reg : Reg)
  | d (number : Fin 32)
  | s (number : Fin 32)
deriving DecidableEq, Repr

/-- The handle of a register in its 64-bit width. -/
def Reg.xHandle (r : Reg) : Register := ⟨r.index.val⟩

/-- The handle of a register in its 32-bit width. -/
def Reg.wHandle (r : Reg) : Register := ⟨32 + r.index.val⟩

def dHandle (n : Fin 32) : Register := ⟨64 + n.val⟩

def sHandle (n : Fin 32) : Register := ⟨96 + n.val⟩

end A64

namespace Register

/-- Looks at a handle as a register of ARM64. -/
def a64View (r : Register) : Except Violation A64.View :=
  if r.isNone then .ok .none
  else if h : 0 ≤ r.id ∧ r.id < 32 then .ok (.x ⟨⟨r.id.toNat, by omega⟩⟩)
  else if h : 32 ≤ r.id ∧ r.id < 64 then .ok (.w ⟨⟨r.id.toNat - 32, by omega⟩⟩)
  else if h : 64 ≤ r.id ∧ r.id < 96 then .ok (.d ⟨r.id.toNat - 64, by omega⟩)
  else if h : 96 ≤ r.id ∧ r.id < 128 then .ok (.s ⟨r.id.toNat - 96, by omega⟩)
  else .error (.notOfClass r .arm64)

/-- The general-purpose register a handle names, in either width. -/
def core (r : Register) : Except Violation A64.Reg := do
  match ← r.a64View with
  | .x reg | .w reg => return reg
  | _ => throw (.notOfClass r .core)

/-- The register of a handle of the 64-bit class. -/
def asX (r : Register) : Except Violation A64.Reg := do
  match ← r.a64View with
  | .x reg => return reg
  | _ => throw (.notOfClass r .x)

/-- The register of a handle of the 32-bit class. -/
def asW (r : Register) : Except Violation A64.Reg := do
  match ← r.a64View with
  | .w reg => return reg
  | _ => throw (.notOfClass r .w)

/-- The floating-point register a handle names, in either width. -/
def fp (r : Register) : Except Violation A64.VReg := do
  match ← r.a64View with
  | .d n | .s n => return ⟨UInt8.ofNat n⟩
  | _ => throw (.notOfClass r .fp)

/-- The 64-bit handle of the same general-purpose register. -/
def overlappingX (r : Register) : Except Violation Register := return (← r.core).xHandle

/-- The 32-bit handle of the same general-purpose register. -/
def overlappingW (r : Register) : Except Violation Register := return (← r.core).wHandle

/-- The number of the physical register on ARM64: general-purpose ones
first, then the floating-point ones. -/
def a64Place (r : Register) : Except Violation Nat := do
  match ← r.a64View with
  | .x reg | .w reg => return reg.index.val
  | .d n | .s n => return 32 + n.val
  | .none => throw (.notOfClass r .fp)

/-- Whether two handles share bits on ARM64. -/
def a64Overlaps (r s : Register) : Except Violation Bool := do
  match ← r.a64View, ← s.a64View with
  | .x a, .x b | .x a, .w b | .w a, .x b | .w a, .w b => return a == b
  | .d a, .d b | .d a, .s b | .s a, .d b | .s a, .s b => return a == b
  | _, _ => return false

end Register

end Crossing
