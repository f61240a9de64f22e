import Crossing.Argument.Location

/-
The operations that glue code between managed and native code is written
in. They say what a stub does at each point (build a frame, switch the
thread's state, marshal arguments, call through a method's native entry);
each instruction set turns them into instructions of its own.

Sizes are in bytes, frame offsets relative to the current stack pointer.
-/
namespace Crossing.Glue

/-- A branch target, valid with the assembler that handed it out. -/
structure Label where
  isa : Isa
  /-- The assembler that handed it out. -/
  owner : Nat
  index : Nat
deriving DecidableEq, Repr

/-- What a tested value has to be for a branch to be taken. -/
inductive Test where
  | zero
  | notZero
deriving DecidableEq, Repr

/-- One operation. -/
inductive Op where
  -- frames
  | buildFrame (size : Nat) (method : Register) (saves : List Register)
  | removeFrame (size : Nat) (saves : List Register) (maySuspend : Bool)
  | increaseFrame (adjust : Nat)
  | decreaseFrame (adjust : Nat)
  -- stores and loads
  | store (offset : FrameOffset) (src : Register) (size : Nat)
  | storeToMember (base : Register) (offset : MemberOffset) (src : Register) (size : Nat)
  | storePointer (offset : FrameOffset) (src : Register)
  /-- Publishes the stack pointer in the thread, tagged in its second bit if
  asked to. -/
  | storeStackPointer (offset : ThreadOffset) (tag : Bool)
  | load (dest : Register) (offset : FrameOffset) (size : Nat)
  | loadFromMember (dest base : Register) (offset : MemberOffset) (size : Nat)
  | loadPointerFromThread (dest : Register) (offset : ThreadOffset)
  /-- Loads a 32-bit reference from a root, without telling the collector. -/
  | loadRoot (dest base : Register) (offset : MemberOffset)
  -- moves
  | moveArguments (dests sources : List Location) (slots : List FrameOffset)
  | move (dest src : Register) (size : Nat)
  | loadImmediate (dest : Register) (value : UInt64)
  | copy (dest src : FrameOffset) (size : Nat)
  | signExtend (reg : Register) (size : Nat)
  | zeroExtend (reg : Register) (size : Nat)
  -- the thread and its objects
  | currentThread (dest : Register)
  | currentThreadToFrame (dest : FrameOffset)
  /-- Replaces a reference's handle by the reference. Global handles branch
  to `slow`, null to `resume`. -/
  | decodeReference (reg : Register) (slow resume : Label)
  | verifyObject (src : Register) (couldBeNull : Bool)
  -- calls
  | jumpTo (base : Register) (offset : PlainOffset)
  | call (base : Register) (offset : PlainOffset)
  | callFromThread (offset : ThreadOffset)
  -- thread state
  /-- Leaves managed code, or branches when a request is pending. -/
  | runnableToNative (slow : Label) (scratch : List Register)
  /-- Returns to managed code, or branches when a request is pending. -/
  | nativeToRunnable (slow : Label) (scratch : List Register) (result : Register)
  | suspendCheck (slow : Label)
  | exceptionPoll (slow : Label)
  | deliverException
  -- branches
  | jump (target : Label)
  | testMarking (target : Label) (test : Test)
  | testMarkBit (reference : Register) (target : Label) (test : Test)
  | testByte (address : UInt64) (target : Label)
  | bind (label : Label)
deriving DecidableEq, Repr

/-- The labels an operation names, in the order they are checked. -/
def Op.labels : Op → List Label
  | .decodeReference _ slow resume => [slow, resume]
  | .runnableToNative label _ | .nativeToRunnable label _ _ | .suspendCheck label
  | .exceptionPoll label | .jump label | .testMarking label _ | .testMarkBit _ label _
  | .testByte _ label | .bind label => [label]
  | _ => []

-- ============================================================ emission

/-- What an operation is turned into: instructions, with labels bound
between them. -/
inductive Item (ι : Type) where
  | instr (i : ι)
  | bind (label : Nat)
deriving DecidableEq, Repr

/-- Items that use the labels below `next`. -/
structure Emission (ι : Type) where
  items : List (Item ι)
  next : Nat
deriving DecidableEq, Repr

namespace Emission

/-- Straight-line code, which needs no label of its own. -/
def ofInstrs {ι : Type} (next : Nat) (is : List ι) : Emission ι := ⟨is.map .instr, next⟩

/-- Turns a list of things into items one after the other, handing the next
free label on. -/
def concat {α ι : Type} (f : α → Nat → Except Violation (Emission ι)) :
    List α → Nat → Except Violation (Emission ι)
  | [], next => .ok ⟨[], next⟩
  | a :: as, next => do
      let e ← f a next
      let rest ← concat f as e.next
      return ⟨e.items ++ rest.items, rest.next⟩

end Emission

end Crossing.Glue
