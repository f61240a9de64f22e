import Crossing.Fault.Signal
import Crossing.Heap.Marking
import Crossing.Number.Scientific
import Crossing.Report.Basic
import Crossing.Service.Thrown
import Crossing.Thread.Session

/-
Reports on layouts, entrypoints, numbers, faults, threads and the heap.
-/
namespace Crossing

-- ============================================================ numbers

/-- A double-precision number, given by its bits, with twelve digits. -/
def Report.real (bits : Nat) : Report := .text (Number.showDouble 11 bits)

-- ============================================== layout and entrypoints

instance : Reportable Routine :=
  ⟨fun
    | .null => .number 0
    | .service _ => .text "default"
    | .mark r => .record [("mark", report r)]
    | .code n => .word n⟩

namespace ThreadBlock

/-- Where a slot of the entrypoint table is. -/
def slotSummary (ps : PointerSize) (index : Nat) : Report :=
  .record [("index", report index), ("offset", report (index * ps.bytes)),
    ("thread_offset", report ((entrypointsOffset ps).value + index * ps.bytes))]

/-- All offsets and constants that generated code relies on. -/
def summary (ps : PointerSize) : Report :=
  let slot (s : ThreadSlot) := report (offset ps s)
  .record
    [("thread", .record
        [("thread_flags", report flagsOffset), ("is_gc_marking", report markingOffset),
          ("self", slot .self), ("exception", slot .exception),
          ("top_of_managed_stack", slot .topOfManagedStack), ("jni_env", slot .jniEnv),
          ("suspend_trigger", slot .suspendTrigger),
          ("held_mutex_mutator_lock", slot .heldMutatorLock),
          ("mutator_lock", slot .mutatorLock), ("stack_end", slot .stackEnd),
          ("quick_entrypoints", report (entrypointsOffset ps))]),
      ("method", .record
        [("declaring_class", report MethodRecord.declaringClassOffset),
          ("entry_point_from_jni", report (MethodRecord.jniEntryOffset ps)),
          ("entry_point_from_quick", report (MethodRecord.quickEntryOffset ps))]),
      ("object", .record
        [("class", report ObjectHeader.classOffset), ("monitor", report ObjectHeader.monitorOffset),
          ("mark_bit_shift", report ObjectHeader.markBitShift),
          ("mark_bit_mask", report ObjectHeader.markBitMask),
          ("reference_size", report ObjectHeader.referenceSize)]),
      ("flags", .record
        [("suspend", report ThreadFlag.suspendRequest),
          ("checkpoint", report ThreadFlag.checkpointRequest),
          ("empty_checkpoint", report ThreadFlag.emptyCheckpointRequest),
          ("suspend_or_checkpoint", report ThreadFlag.suspendOrCheckpoint)]),
      ("fixed_entrypoints", report Entrypoint.count),
      ("entrypoints", report Entrypoint.slotCount),
      ("order", report (Entrypoint.all.map (·.slotName)))]

end ThreadBlock

-- ============================================================= faults

namespace FaultOutcome

/-- The slot whose routine a thread goes on in. -/
def resumeName (t : ThreadRecord) (r : Routine) : Report :=
  match [FaultKind.nullPointer, .suspendCheck, .stackOverflow].find?
      fun k => t.table.fixed k.entrypoint = r with
  | some k => .text k.entrypoint.slotName
  | none => report r

/-- How a fault ended. Of the stack it shows the words at the given
addresses and those that were pushed since the stack pointer was `oldSp`. -/
def summary (o : FaultOutcome) (given : List Nat) (oldSp : Nat) : Report :=
  let t := o.trap
  let pushed := (List.range ((oldSp - t.sp) / t.wordBytes)).map fun i => t.sp + i * t.wordBytes
  let addresses := (given ++ pushed).mergeSort.eraseDups
  .record [("outcome", .text ((o.handledBy.map (·.name)).getD "not_handled")),
    ("pc", match o.thread, t.resumeAt with
      | some thread, some r => resumeName thread r
      | _, _ => .word t.pc),
    ("sp", .word t.sp), ("fault_address", .word t.faultAddress), ("lr", .word t.linkRegister),
    ("arg0", .word (t.arguments 0)),
    ("words", .list (addresses.filterMap fun a => (t.words a).map fun v =>
      .list [.word a, .word v]))]

end FaultOutcome

instance : Reportable SignalError :=
  ⟨fun e => .error
    (match e with
      | .alreadyInstalled => "AlreadyInstalled"
      | .notInstalled => "NotInstalled") e.message⟩

instance : Reportable SignalAction :=
  ⟨fun
    | .default => .record [("error", .text "segv")]
    | .plain => .text "chained to one-argument handler"
    | .detailed => .text "chained to siginfo handler"⟩

/-- A raised exception; `shown` tells how the exception that compiled code
delivers is named. -/
def Thrown.summary (shown : Nat → Report) (t : Thrown) : Report :=
  .record [("throw", .list (.text t.name :: match t with
    | .nullPointer a => [.word a]
    | .pending r => [shown r]
    | _ => []))]

-- ============================================================ threads

instance : Reportable HandleError :=
  ⟨fun e => .error
    (match e with
      | .localTableFull _ => "LocalTableFull"
      | .invalidGlobal _ => "InvalidGlobal") e.message⟩

instance : Reportable ThreadError :=
  ⟨fun e => .error
    (match e with
      | .alreadyAttached _ => "AlreadyAttached"
      | .notAttached => "NotAttached") e.message⟩

namespace Reply

mutual

def summary : Reply → Report
  | .done => .null
  | .attached => .text "attached"
  | .detached => .text "detached"
  | .marking => .text "marking"
  | .marked n => .record [("marked", report n)]
  | .suspended n => .record [("suspended", report n)]
  | .resumed => .text "resumed"
  | .woken replies => .record [("woken", .list (wokenSummary replies))]
  | .blocked => .text "blocked"
  | .refused v => report v
  | .failed e => report e

def wokenSummary : List (Nat × Reply) → List Report
  | [] => []
  | (w, r) :: rest => .list [report w, r.summary] :: wokenSummary rest

end

end Reply

instance : Reportable Reply := ⟨Reply.summary⟩

instance : Reportable ManagedFrame := ⟨fun f => .list [.word f.sp, report f.isJit]⟩

/-- A thread's record; of its checkpoints the ones from number `since` on. -/
def ThreadRecord.summary (t : ThreadRecord) (since : Nat) (blocked : Bool) : Report :=
  .record [("id", report t.id), ("name", report t.name), ("isa", report t.isa),
    ("state", report t.state.name), ("flags", report t.word.flags),
    ("state_and_flags", report t.word.bits), ("suspended_or_native", report t.isStopped),
    ("marking", report t.marking), ("marks", report t.table.markedCount),
    ("held", report t.heldLock), ("exception", report t.exception),
    ("pending", report (t.exception ≠ 0 : Bool)), ("frame", report t.frame?),
    ("trigger_armed", report t.triggerArmed), ("locals", report t.locals.top),
    ("blocked", report blocked), ("ran", report ((t.ran.drop since).map Checkpoint.tag))]

/-- What can be seen after a step: the latest record of every worker, and
who is attached. The session before the step tells which checkpoints are
new. -/
def Session.summary (s before : Session) : List (String × Report) :=
  let ranBefore (id : Nat) := ((before.world.records id).map (·.ran.length)).getD 0
  let worker (a : Nat) := (s.world.own? a).map fun t =>
    t.summary (ranBefore t.id) (!s.world.isIdle a)
  [("threads", report ((List.range s.workers).map worker)),
    ("listed", report (s.world.listed.map fun id => (s.world.records id).map (·.name))),
    ("len", report s.world.listed.length), ("empty", report s.world.listed.isEmpty)]

-- =============================================================== heap

/-- The units of a string. -/
def Report.units (units : List UInt16) : Report :=
  .record [("len", report units.length), ("empty", report units.isEmpty),
    ("chars", report (units.map (·.toNat)))]

instance : Reportable HeapError :=
  ⟨fun e => .error
    (match e with
      | .noLowMemory _ => "NoLowMemory"
      | .exhausted .. => "Exhausted"
      | .refused _ => "panic") e.message⟩

instance : Reportable Collector :=
  ⟨fun c => .record [("phase", report c.phase), ("cycles", report c.cycles),
    ("objects_marked", report c.objectsMarked)]⟩

end Crossing
