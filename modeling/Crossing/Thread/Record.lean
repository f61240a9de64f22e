import Crossing.Layout.Table
import Crossing.Layout.ThreadBlock
import Crossing.Reference.Table

/-
The record of one managed thread: the control block generated code reaches
through its thread register, and what the runtime keeps beside it. The
operations here are those that touch one record only; `Thread.World` says
when threads perform them and how they wait for each other.
-/
namespace Crossing

-- ========================================================= state word

/-- The word a thread publishes, taken apart: what it is doing and which
requests are pending. -/
structure StateWord where
  state : ThreadState := .native
  suspend : Bool := false
  checkpoint : Bool := false
deriving DecidableEq, Repr

namespace StateWord

/-- The request bits. -/
def flags (w : StateWord) : UInt32 :=
  (if w.suspend then ThreadFlag.suspendRequest else 0)
    ||| (if w.checkpoint then ThreadFlag.checkpointRequest else 0)

/-- The word as generated code reads it. -/
def bits (w : StateWord) : UInt32 := w.state.word ||| w.flags

/-- Whether no request is pending. -/
def isQuiet (w : StateWord) : Bool := !w.suspend && !w.checkpoint

end StateWord

-- ============================================================= record

/-- Work that a thread does at its next suspend point: it leaves its tag in
the thread's log and asks the same thread for further work. -/
inductive Checkpoint where
  | log (tag : String) (next : List Checkpoint)
deriving Repr

namespace Checkpoint

def tag : Checkpoint → String
  | log tag _ => tag

def next : Checkpoint → List Checkpoint
  | log _ next => next

/-- How much work a checkpoint stands for, what it asks for included. -/
def weight : Checkpoint → Nat
  | log _ next => 1 + (next.attach.map fun ⟨c, _⟩ => weight c).foldr (· + ·) 0

end Checkpoint

/-- A published stack pointer. -/
structure ManagedFrame where
  sp : Nat
  /-- Whether the frame belongs to code compiled at run time. -/
  isJit : Bool
deriving DecidableEq, Repr

structure ThreadRecord where
  id : Nat
  name : String
  isa : Isa
  /-- The operating-system thread the record was made for. -/
  owner : Nat
  word : StateWord := {}
  marking : Bool := false
  /-- Whether the control block says that the mutator lock is held. -/
  heldLock : Bool := false
  exception : HeapRef := 0
  /-- The published stack pointer with its tag in the low bits; zero is
  none. -/
  topFrame : Nat := 0
  /-- Whether the next implicit suspend check will fault. -/
  triggerArmed : Bool := false
  stackEnd : Nat := 0
  table : EntrypointTable
  locals : LocalTable
  /-- Checkpoints asked for and not yet taken up. -/
  queue : List Checkpoint := []
  /-- Checkpoints taken up and not yet run. -/
  taken : List Checkpoint := []
  /-- Checkpoints run, the first one first. -/
  ran : List Checkpoint := []
  /-- Suspend requests outstanding; the request bit is set while there are
  any. -/
  suspendCount : Nat := 0

namespace ThreadRecord

/-- Number of local references a thread can hold. -/
def localCapacity : Nat := 512

/-- A fresh record: in native code, no request pending, the runtime's own
entrypoints. -/
def fresh (id : Nat) (name : String) (isa : Isa) (owner : Nat) : ThreadRecord :=
  { id, name, isa, owner, table := .ofIsa isa
    locals := .ofCapacity (id * 4 * (localCapacity + 1)) localCapacity }

def state (t : ThreadRecord) : ThreadState := t.word.state

/-- Whether the thread cannot be running managed code. -/
def isStopped (t : ThreadRecord) : Bool := t.state ≠ .runnable

-- ------------------------------------------------------- managed stack

/-- Publishes a stack pointer; the tag is bit 1. -/
def setFrame (t : ThreadRecord) (sp : Nat) (tag : Bool) : ThreadRecord :=
  { t with topFrame := if tag then sp ||| 2 else sp }

/-- The published stack pointer without its tag. -/
def frame? (t : ThreadRecord) : Option ManagedFrame :=
  if t.topFrame = 0 then none
  else some ⟨t.topFrame / 4 * 4, t.topFrame / 2 % 2 = 1⟩

-- --------------------------------------------------- state and requests

def setState (t : ThreadRecord) (s : ThreadState) : ThreadRecord :=
  { t with word := { t.word with state := s } }

/-- Replaces the state if the word is still what was seen. -/
def swapState? (t : ThreadRecord) (seen : StateWord) (s : ThreadState) : Option ThreadRecord :=
  if t.word = seen then some (t.setState s) else none

/-- Adds suspend requests; none leaves the record alone. -/
def requestSuspend (t : ThreadRecord) (n : Nat) : ThreadRecord :=
  if n = 0 then t
  else { t with suspendCount := t.suspendCount + n, word := { t.word with suspend := true } }

/-- Takes one suspend request back; the bit clears with the last one. -/
def releaseSuspend (t : ThreadRecord) : Except Violation ThreadRecord :=
  match t.suspendCount with
  | 0 => .error (.noSuspendRequest t.id)
  | 1 => .ok { t with suspendCount := 0, word := { t.word with suspend := false } }
  | n + 2 => .ok { t with suspendCount := n + 1 }

def armTrigger (t : ThreadRecord) : ThreadRecord := { t with triggerArmed := true }

def disarmTrigger (t : ThreadRecord) : ThreadRecord := { t with triggerArmed := false }

/-- Queues work for the thread's next suspend point. -/
def requestCheckpoint (t : ThreadRecord) (c : Checkpoint) : ThreadRecord :=
  { t with queue := t.queue ++ [c], word := { t.word with checkpoint := true } }

/-- Takes up all queued work. -/
def takeCheckpoints (t : ThreadRecord) : ThreadRecord :=
  { t with taken := t.taken ++ t.queue, queue := [], word := { t.word with checkpoint := false } }

/-- Sets the marking flag and the mark slots together. -/
def flip (t : ThreadRecord) (isa : Isa) (marking : Bool) : ThreadRecord :=
  { t with marking, table := t.table.flipMarks isa marking }

/-- Work left in the record's queues. -/
def backlog (t : ThreadRecord) : Nat :=
  ((t.queue ++ t.taken).map Checkpoint.weight).foldr (· + ·) 0

end ThreadRecord

end Crossing
