/-
Register handles. A handle is an identifier that every code generator
shares; what it names depends on the instruction set, which gives ranges
of identifiers to its register classes:

* x86-64: 0 to 15 are the CPU registers, 16 to 31 the XMM registers;
* ARM64: 0 to 31 are the X registers (31 is the stack pointer), 32 to 63
  the W registers, 64 to 95 the D registers, 96 to 127 the S registers.
-/
namespace Crossing

/-- The kinds of register a handle can be asked to name. -/
inductive RegisterClass where
  /-- Any register of x86-64. -/
  | x86
  /-- Any register of ARM64. -/
  | arm64
  | cpu
  | xmm
  /-- A general-purpose register of ARM64 in either width. -/
  | core
  | x
  | w
  /-- A floating-point register of ARM64 in either width. -/
  | fp
deriving DecidableEq, Repr

/-- A class with its article, as messages put it before "register". -/
def RegisterClass.described : RegisterClass → String
  | x86 => "an x86-64"
  | arm64 => "an ARM64"
  | cpu => "a CPU"
  | xmm => "an XMM"
  | core => "a core"
  | x => "an X"
  | w => "a W"
  | fp => "an FP"

/-- A register handle. The identifier -1 stands for "no register". -/
structure Register where
  id : Int
deriving DecidableEq, Repr

namespace Register

/-- The handle that names no register on any instruction set. -/
def none : Register := ⟨-1⟩

def isNone (r : Register) : Bool := r.id = -1

def isSome (r : Register) : Bool := r.id ≠ -1

/-- How a handle is shown in messages. -/
def shown (r : Register) : String :=
  if r.isNone then "NoRegister" else s!"ManagedRegister({r.id})"

end Register

end Crossing
