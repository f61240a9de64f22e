/-
Byte offsets, kept apart by what they are relative to. An offset is a
64-bit quantity; instructions can hold one only as a 32-bit displacement.
-/
namespace Crossing

/-- What an offset is relative to. -/
inductive OffsetBase where
  /-- Nothing in particular: a call or jump through `[base + offset]`. -/
  | plain
  /-- The stack pointer of the current frame. -/
  | frame
  /-- The start of a managed object or of a runtime structure. -/
  | member
  /-- The start of the per-thread control block. -/
  | thread
deriving DecidableEq, Repr

namespace OffsetBase

/-- The name offsets of this kind are printed under. -/
def name : OffsetBase → String
  | plain => "Offset"
  | frame => "FrameOffset"
  | member => "MemberOffset"
  | thread => "ThreadOffset"

end OffsetBase

/-- A byte offset relative to `base`. -/
structure Offset (base : OffsetBase) where
  value : Nat
deriving DecidableEq, Repr

abbrev FrameOffset := Offset .frame
abbrev MemberOffset := Offset .member
abbrev ThreadOffset := Offset .thread
abbrev PlainOffset := Offset .plain

namespace Offset

def shown {b : OffsetBase} (o : Offset b) : String := s!"{b.name}({o.value})"

/-- The same distance, read relative to something else. -/
def recast {b : OffsetBase} (c : OffsetBase) (o : Offset b) : Offset c := ⟨o.value⟩

/-- Marks an argument that is not a reference where a reference would have
its slot: no reference lives at the stack pointer itself. -/
def noReference : FrameOffset := ⟨0⟩

def isReference (o : FrameOffset) : Bool := o ≠ noReference

end Offset

end Crossing
