import Crossing.Isa
import Crossing.Number.Power
import Crossing.Offset
import Crossing.Register.Handle
import Crossing.Text.Digits

/-
Broken preconditions. Most operations of this library demand something of
their caller: a register of the right class, an offset that an instruction
can hold, a label that is bound once, arithmetic that stays inside 64 bits.
`Violation` lists everything that can be demanded and not be met; an
operation that refuses its arguments does so with one of these, before it
has had any effect.

The checked arithmetic at the end is the arithmetic of 64-bit machine
words, stated on `Nat` so that bounds stay plain inequalities.
-/
namespace Crossing

/-- The reason an operation refused its arguments. -/
inductive Violation where
  -- arithmetic and indexing
  | addOverflow
  | subOverflow
  | shlOverflow
  | indexOutOfBounds (len index : Nat)
  | rangeEndOutOfBounds (stop len : Nat)
  -- offsets
  | displacementTooWide
  | immediateTooWide
  -- code buffers
  | codeTooLong
  | labelBoundTwice (label : Nat)
  -- ARM64 operands
  | offsetNotEncodable (offset scale : Nat)
  | pairOffsetNotEncodable (offset : Int)
  | additionTooLarge (imm : Nat)
  | imm12TooLarge
  | bitNotBelow64
  | bitNotBelow32
  | halfNotBelow2
  | clearedBitsOutside64
  | lowBitsOutside32
  -- register classes
  | notOfClass (r : Register) (cls : RegisterClass)
  -- argument locations and moves
  | locationNeedsRegister
  | stackHasNoRegister (offset : FrameOffset)
  | registerHasNoOffset (r : Register)
  | sourcesDifferInLength
  | referencesDifferInLength
  | registerCycle
  -- glue operations
  | labelOfOtherIsa (label assembler : Isa)
  | labelOfOtherAssembler
  | finalizedTwice
  | notFinalized
  | regionTooSmall (region code : Nat)
  | labelUnbound (isa : Isa) (label : Nat)
  | branchTooFar (isa : Isa) (label : Nat)
  | frameNotAligned (size : Nat)
  | adjustmentNotAligned (size : Nat)
  /-- More or less is on the stack than there should be. -/
  | stackMiscounted (counted expected : Nat)
  | storeFromNone (size : Nat)
  | loadIntoNone (size : Nat)
  | storeSize (size : Nat) (cls : RegisterClass)
  | loadSize (size : Nat) (cls : RegisterClass)
  | moveBetween (src dest : Register)
  | copySize (size : Nat)
  | signExtension (size : Nat)
  | zeroExtension (size : Nat)
  | registerSize (size : Nat)
  | savesDoNotFit
  | notCalleeSave (r : Register)
  | needsTwoScratch
  | scratchIsRax
  | returnOverlapsScratch (r : Register)
  -- entry points
  | noMarkSlot (register : Nat)
  -- threads
  | mustBeRunnable (thread : Nat)
  | mustBeNative (thread : Nat)
  | noSuspendRequest (thread : Nat)
  -- collector and heap
  | alreadyMarking
  | notMarking
  | outsideHeap (address : Nat)
deriving DecidableEq, Repr

namespace Violation

/-- The wording of each refusal. -/
def message : Violation → String
  | addOverflow => "attempt to add with overflow"
  | subOverflow => "attempt to subtract with overflow"
  | shlOverflow => "attempt to shift left with overflow"
  | indexOutOfBounds len index =>
      s!"index out of bounds: the len is {len} but the index is {index}"
  | rangeEndOutOfBounds stop len =>
      s!"range end index {stop} out of range for slice of length {len}"
  | displacementTooWide => "offset does not fit in a 32-bit displacement"
  | immediateTooWide => "offset does not fit in an ARM64 immediate"
  | codeTooLong => "capacity overflow"
  | labelBoundTwice label => s!"label {label} bound twice"
  | offsetNotEncodable offset scale => s!"offset {offset} not encodable with scale {scale}"
  | pairOffsetNotEncodable offset => s!"pair offset {offset} not encodable"
  | additionTooLarge imm => s!"immediate {imm} too large"
  | imm12TooLarge => "assertion failed: imm12 < 4096"
  | bitNotBelow64 => "assertion failed: bit < 64"
  | bitNotBelow32 => "assertion failed: bit < 32"
  | halfNotBelow2 => "assertion failed: hw < 2"
  | clearedBitsOutside64 => "assertion failed: (1..64).contains(&bits)"
  | lowBitsOutside32 => "assertion failed: (1..32).contains(&count)"
  | notOfClass r cls => s!"{r.shown} is not {cls.described} register"
  | locationNeedsRegister => "argument location needs a real register"
  | stackHasNoRegister offset => s!"argument at {offset.shown} has no register"
  | registerHasNoOffset r => s!"argument in {r.shown} has no frame offset"
  | sourcesDifferInLength => "move_arguments: dests and srcs differ in length"
  | referencesDifferInLength => "move_arguments: dests and refs differ in length"
  | registerCycle => "move_arguments: register cycle, no progress possible"
  | labelOfOtherIsa label assembler =>
      s!"label created for {label.name} used with a {assembler.name} assembler"
  | labelOfOtherAssembler => "label used with an assembler that did not create it"
  | finalizedTwice => "finalize_code called twice"
  | notFinalized => "code_size before finalize_code"
  | regionTooSmall region code =>
      s!"region of {region} bytes cannot hold {code} bytes of code"
  | labelUnbound isa label =>
      s!"cannot finalize {isa.name} JNI stub: label {label} referenced but never bound"
  | branchTooFar isa label =>
      s!"cannot finalize {isa.name} JNI stub: branch to label {label} out of range"
  | frameNotAligned size => s!"frame size {size} is not aligned"
  | adjustmentNotAligned size => s!"frame adjustment {size} is not aligned"
  | stackMiscounted counted expected =>
      s!"assertion `left == right` failed\n  left: {counted}\n right: {expected}"
  | storeFromNone size => s!"store of {size} bytes from no register"
  | loadIntoNone size => s!"load of {size} bytes into no register"
  | storeSize size cls => s!"unsupported store size {size} for {cls.described} register"
  | loadSize size cls => s!"unsupported load size {size} for {cls.described} register"
  | moveBetween src dest => s!"unsupported move from {src.shown} to {dest.shown}"
  | copySize size => s!"unsupported copy size {size}"
  | signExtension size => s!"unsupported sign extension from {size} bytes"
  | zeroExtension size => s!"unsupported zero extension from {size} bytes"
  | registerSize size => s!"unsupported register size {size}"
  | savesDoNotFit => "callee saves do not fit the frame"
  | notCalleeSave r =>
      s!"callee-save Arm64ManagedRegister({r.shown}) must be an X or D register"
  | needsTwoScratch => "Native->Runnable needs two scratch registers"
  | scratchIsRax => "scratch registers must not be RAX"
  | returnOverlapsScratch r => s!"return register {r.shown} overlaps IP0/IP1"
  | noMarkSlot register => s!"no mark slot for register {register}"
  | mustBeRunnable thread => s!"thread {thread} must be Runnable to enter native code"
  | mustBeNative thread => s!"thread {thread} must be Native to return to managed code"
  | noSuspendRequest thread => s!"thread {thread} has no suspend request to remove"
  | alreadyMarking => "marking already in progress"
  | notMarking => "no marking in progress"
  | outsideHeap address => s!"object at {Text.hexWord address} is outside the 32-bit heap"

end Violation

-- ================================================ machine-word arithmetic

/-- One more than the largest 64-bit word. -/
def wordLimit : Nat := 2 ^ 64

/-- The sum of two words, refused when it does not fit a word. -/
def addWord (a b : Nat) : Except Violation Nat :=
  if a + b < wordLimit then .ok (a + b) else .error .addOverflow

/-- The difference of two words, refused when it would be negative. -/
def subWord (a b : Nat) : Except Violation Nat :=
  if b ≤ a then .ok (a - b) else .error .subOverflow

namespace Offset

/-- The offset as a displacement that an instruction can hold. -/
def displacement {b : OffsetBase} (o : Offset b) : Except Violation Int32 :=
  if o.value < 2 ^ 31 then .ok (Int32.ofNat o.value) else .error .displacementTooWide

/-- The offset `delta` bytes further on. -/
def plus (o : FrameOffset) (delta : Nat) : Except Violation FrameOffset :=
  (addWord o.value delta).map Offset.mk

end Offset

end Crossing
