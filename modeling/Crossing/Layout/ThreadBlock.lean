import Crossing.Layout.Entrypoint

/-
Where generated code finds things in the control block of its thread, in a
method record and in an object header, and how the thread's state word is
made up.
-/
namespace Crossing

-- ======================================================= thread block

/-- The pointer-sized slots of the thread control block, in order. They
follow two 32-bit words: state and flags, and the marking flag. -/
inductive ThreadSlot where
  | self
  | exception
  | topOfManagedStack
  | jniEnv
  | suspendTrigger
  | heldMutatorLock
  | mutatorLock
  | stackEnd
deriving DecidableEq, Repr

namespace ThreadBlock

def flagsOffset : ThreadOffset := ⟨0⟩

def markingOffset : ThreadOffset := ⟨4⟩

def slotIndex : ThreadSlot → Nat
  | .self => 0
  | .exception => 1
  | .topOfManagedStack => 2
  | .jniEnv => 3
  | .suspendTrigger => 4
  | .heldMutatorLock => 5
  | .mutatorLock => 6
  | .stackEnd => 7

def offset (ps : PointerSize) (slot : ThreadSlot) : ThreadOffset :=
  ⟨8 + slotIndex slot * ps.bytes⟩

/-- The entrypoint table comes last. -/
def entrypointsOffset (ps : PointerSize) : ThreadOffset := ⟨8 + 8 * ps.bytes⟩

/-- The slot of one entrypoint. -/
def entrypoint (ps : PointerSize) (e : Entrypoint) : ThreadOffset :=
  ⟨(entrypointsOffset ps).value + e.offset ps⟩

end ThreadBlock

-- ========================================================= state word

/-- What a thread is doing, as far as the collector cares. -/
inductive ThreadState where
  | runnable
  | native
  | suspended
  | terminated
deriving DecidableEq, Repr

namespace ThreadState

def name : ThreadState → String
  | runnable => "Runnable"
  | native => "Native"
  | suspended => "Suspended"
  | terminated => "Terminated"

def code : ThreadState → UInt32
  | runnable => 0
  | native => 1
  | suspended => 2
  | terminated => 3

/-- The state word of a thread in this state with no request pending; the
state is kept in the top byte. -/
def word (s : ThreadState) : UInt32 := s.code <<< 24

end ThreadState

namespace ThreadFlag

def suspendRequest : UInt32 := 1

def checkpointRequest : UInt32 := 2

def emptyCheckpointRequest : UInt32 := 4

/-- The requests that an inline suspend check looks for: the low bits of
the state word. -/
def suspendOrCheckpoint : UInt32 := 7

/-- How many bits that is. -/
def suspendOrCheckpointBits : Nat := 3

end ThreadFlag

-- ================================================= methods and objects

namespace MethodRecord

/-- The class is a 32-bit reference at the start of the record. -/
def declaringClassOffset : MemberOffset := ⟨0⟩

/-- Two 32-bit fields come before the entry points. -/
def jniEntryOffset (_ : PointerSize) : MemberOffset := ⟨8⟩

def quickEntryOffset (ps : PointerSize) : MemberOffset := ⟨8 + ps.bytes⟩

end MethodRecord

namespace ObjectHeader

def classOffset : MemberOffset := ⟨0⟩

def monitorOffset : MemberOffset := ⟨4⟩

def referenceSize : Nat := 4

/-- The bit of the lock word that the collector sets on a marked object. -/
def markBitShift : Nat := 29

def markBitMask : UInt32 := 0x20000000

end ObjectHeader

end Crossing
