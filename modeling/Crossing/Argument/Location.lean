import Crossing.Violation

/-
Where an argument lives: in a register, or in a slot of the current frame.
-/
namespace Crossing

/-- The place of one argument, with its size in bytes. -/
inductive Location where
  | register (reg : Register) (size : Nat)
  | stack (offset : FrameOffset) (size : Nat)
deriving DecidableEq, Repr

namespace Location

/-- A register location; it needs a handle that names a register. -/
def inRegister (reg : Register) (size : Nat) : Except Violation Location :=
  if reg.isSome then .ok (.register reg size) else .error .locationNeedsRegister

def isRegister : Location → Bool
  | register .. => true
  | stack .. => false

def size : Location → Nat
  | register _ size | stack _ size => size

/-- The register of a register location. -/
def reg : Location → Except Violation Register
  | register reg _ => .ok reg
  | stack offset _ => .error (.stackHasNoRegister offset)

/-- The slot of a stack location. -/
def frameOffset : Location → Except Violation FrameOffset
  | stack offset _ => .ok offset
  | register reg _ => .error (.registerHasNoOffset reg)

end Location

end Crossing
