import Crossing.Fault.Manager

/-
Taking faults from the operating system. At most one manager is installed
at a time. A fault it does not recognise goes to the action that was in
place before.
-/
namespace Crossing

/-- Why a manager could not be installed or removed. -/
inductive SignalError where
  | alreadyInstalled
  | notInstalled
deriving DecidableEq, Repr

namespace SignalError

def message : SignalError → String
  | alreadyInstalled => "a fault handler is already installed"
  | notInstalled => "no fault handler is installed"

end SignalError

/-- What the operating system does with a fault when no manager is asked, or
none recognises it. -/
inductive SignalAction where
  /-- The process dies. -/
  | default
  /-- A handler that is told the signal. -/
  | plain
  /-- A handler that is told the signal and its circumstances. -/
  | detailed
deriving DecidableEq, Repr

/-- Who is asked first about a fault. -/
structure SignalHook where
  installed : Option FaultManager := none
  previous : SignalAction := .default
deriving Repr

namespace SignalHook

def isInstalled (h : SignalHook) : Bool := h.installed.isSome

def install (h : SignalHook) (m : FaultManager) : Except SignalError SignalHook :=
  if h.isInstalled then .error .alreadyInstalled else .ok { h with installed := some m }

def uninstall (h : SignalHook) : Except SignalError SignalHook :=
  if h.isInstalled then .ok { h with installed := none } else .error .notInstalled

/-- What becomes of a fault: the thread goes on where a handler sends it, or
the previous action is taken. -/
def deliver (h : SignalHook) (t : Trap) (thread : Option ThreadRecord) :
    Except Violation (Except SignalAction FaultOutcome) :=
  match h.installed with
  | none => .ok (.error h.previous)
  | some m => do
      let outcome ← m.handle t thread
      return if outcome.handledBy.isSome then .ok outcome else .error h.previous

end SignalHook

namespace X86

/-- Signed displacement of the memory operand of an instruction without a
scaled index: what it adds to its base register. -/
def displacement (code : List UInt8) : Int :=
  let code := code.dropWhile fun b => isLegacyByte b || isRex b
  let operand := match code with
    | 0x0F :: _ :: rest => rest
    | _ :: rest => rest
    | [] => []
  match operand with
  | [] => 0
  | modrm :: rest =>
      let n := (addressBytes modrm).2
      let value := ((rest.take n).foldr (fun b v => b.toNat + 256 * v) 0 : Nat)
      if 2 * value < 256 ^ n then value else (value : Int) - (256 ^ n : Nat)

end X86

end Crossing
