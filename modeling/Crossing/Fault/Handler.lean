import Crossing.Fault.Trap
import Crossing.Thread.Record
import Crossing.X86.Length

/-
Implicit checks. Compiled code leaves out the branches for null checks,
stack overflow checks and, if so configured, suspend checks, and lets the
hardware trap instead. Each handler recognises the trap of one such check
and makes the thread go on in the runtime routine that the branch would
have called. A handler that does not recognise a trap leaves no trace.
-/
namespace Crossing

/-- The check that a trap stands for. -/
inductive FaultKind where
  | nullPointer
  | suspendCheck
  | stackOverflow
deriving DecidableEq, Repr

namespace FaultKind

/-- The name in reports that programs read. -/
def name : FaultKind → String
  | nullPointer => "null_pointer"
  | suspendCheck => "suspend_check"
  | stackOverflow => "stack_overflow"

/-- The name in reports that people read. -/
def title : FaultKind → String
  | nullPointer => "null pointer"
  | suspendCheck => "suspend check"
  | stackOverflow => "stack overflow"

/-- The routine that takes over. -/
def entrypoint : FaultKind → Entrypoint
  | nullPointer => .throwNullPointerFromSignal
  | suspendCheck => .testSuspend
  | stackOverflow => .throwStackOverflow

end FaultKind

/-- Generated code that belongs to one method. -/
structure CodeRange where
  start : Nat
  stop : Nat
  /-- Address of the method's record. -/
  method : Nat
deriving DecidableEq, Repr

namespace CodeRange

def contains (r : CodeRange) (pc : Nat) : Bool := r.start ≤ pc && pc < r.stop

end CodeRange

namespace Fault

/-- A fault at or above this address is no null dereference. -/
def nullLimit : Nat := 4096

/-- How far before its test a trigger load may stand. -/
def suspendWindow : Nat := 100

/-- What handlers work on: a trap and the thread that took it. -/
structure Trapped where
  trap : Trap
  thread : ThreadRecord

/-- Work on a trapped thread. -/
abbrev Handling := StateT Trapped (Except Violation)

/-- The routine that takes over after a check, null if the thread has none. -/
def routine (k : FaultKind) : Handling Routine :=
  return (← get).thread.table.fixed k.entrypoint

/-- Pushes a word onto the trapped stack. -/
def push (value : Nat) : Handling Unit := do
  let s ← get
  set { s with trap := ← s.trap.push value }

/-- Changes registers of the trapped thread. -/
def onTrap (f : Trap → Trap) : Handling Unit := modify fun s => { s with trap := f s.trap }

-- ========================================================= null checks

/-- An x86 instruction is at most 15 bytes long; one more are looked at. -/
def lookahead : Nat := 16

/-- A load or store through a null base. Inside compiled code the word at
the stack pointer is the method of the frame. The routine finds the fault
address and the address behind the faulting instruction on the stack, or in
registers on ARM64. -/
def nullPointer (isa : Isa) (range : CodeRange) : Handling Bool := do
  let t := (← get).trap
  let target ← routine .nullPointer
  if t.faultAddress < nullLimit ∧ t.words t.sp = some range.method ∧ target ≠ .null then
    match isa with
    | .x86 | .x86_64 =>
        let code := t.readCode t.pc (min (range.stop - t.pc) lookahead)
        match X86.instructionLength code isa.is64Bit with
        | 0 => return false
        | n + 1 =>
            push (← addWord t.pc (n + 1))
            push t.faultAddress
            onTrap (·.redirect target)
            return true
    | .arm64 =>
        let link ← addWord t.pc 4
        onTrap fun t => { t with linkRegister := link }
        onTrap (·.setArgument 0 t.faultAddress)
        onTrap (·.redirect target)
        return true
    | .arm | .riscv64 => return false
  else return false

-- ====================================================== suspend checks

/-- The load of the trigger into the accumulator, relative to the thread
register. -/
def triggerLoad (isa : Isa) : List UInt8 :=
  let offset := (ThreadBlock.offset isa.pointerSize .suspendTrigger).value
  let field : List UInt8 := [UInt8.ofNat offset, 0, 0, 0]
  if isa.is64Bit then [0x65, 0x48, 0x8B, 0x04, 0x25] ++ field else [0x64, 0x8B, 0x05] ++ field

/-- Whether a byte string occurs in another one. -/
def occurs (pattern : List UInt8) : List UInt8 → Bool
  | [] => pattern.isEmpty
  | b :: rest => pattern.isPrefixOf (b :: rest) || occurs pattern rest

/-- The test of the loaded trigger on x86. -/
def triggerTest : List UInt8 := [0x85, 0x00]

/-- The load through the trigger register on ARM64, least byte first. -/
def triggerProbe : List UInt8 := [0xB5, 0x02, 0x40, 0xF9]

/-- The test of a trigger that was loaded a little before, in the same
method. -/
def testsTrigger (isa : Isa) (range : CodeRange) (t : Trap) : Bool :=
  let start := max (t.pc - suspendWindow) range.start
  t.readCode t.pc 2 = triggerTest && occurs (triggerLoad isa) (t.readCode start (t.pc - start))

/-- Recognises a load through the thread's trigger, and lets the thread go
on in `target`. -/
def triggerFault (isa : Isa) (range : CodeRange) (target : Routine) : Handling Bool := do
  let t := (← get).trap
  match isa with
  | .x86 | .x86_64 =>
      if testsTrigger isa range t then
        push (← addWord t.pc 2)
        onTrap (·.redirect target)
        return true
      else return false
  | .arm64 =>
      if t.readCode t.pc 4 = triggerProbe then
        let link ← addWord t.pc 4
        onTrap fun t => { t with linkRegister := link }
        onTrap (·.redirect target)
        return true
      else return false
  | .arm | .riscv64 => return false

/-- A load through the thread's trigger after somebody has armed it. The
trigger is disarmed once the trap is recognised. -/
def suspendCheck (isa : Isa) (range : CodeRange) : Handling Bool := do
  let target ← routine .suspendCheck
  if target = .null then return false
  else
    let recognised ← triggerFault isa range target
    if recognised then modify fun s => { s with thread := s.thread.disarmTrigger }
    return recognised

-- ====================================================== stack overflow

/-- A probe of the guard region below the stack pointer, before the method
builds its frame. The caller's frame is reused, so the stack stays as it
is. -/
def stackOverflow (isa : Isa) : Handling Bool := do
  let t := (← get).trap
  let target ← routine .stackOverflow
  let probe := (t.sp + (wordLimit - isa.stackOverflowReservedBytes)) % wordLimit
  if t.faultAddress = probe ∧ target ≠ .null then
    onTrap (·.redirect target)
    return true
  else return false

end Fault

namespace FaultKind

/-- What the handler of one check does with a trap; the answer says whether
the trap was its own. -/
def recover (k : FaultKind) (isa : Isa) (range : CodeRange) : Fault.Handling Bool :=
  match k with
  | nullPointer => Fault.nullPointer isa range
  | suspendCheck => Fault.suspendCheck isa range
  | stackOverflow => Fault.stackOverflow isa

end FaultKind

end Crossing
