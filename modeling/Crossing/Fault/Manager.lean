import Crossing.Fault.Handler

/-
The fault manager knows where generated code is and which implicit checks
it relies on. A fault is its business only if a thread took it that was
running managed code, inside a known range; then the handlers are tried in
order and the first one that recognises the trap decides.
-/
namespace Crossing

/-- The implicit checks that compiled code relies on. -/
structure ImplicitChecks where
  null : Bool := true
  suspend : Bool := false
  stackOverflow : Bool := true
deriving DecidableEq, Repr

namespace ImplicitChecks

/-- Compiled code relies on no trap at all. -/
def off : ImplicitChecks := ⟨false, false, false⟩

/-- The handlers that are needed, in the order they are tried. -/
def handlers (c : ImplicitChecks) : List FaultKind :=
  (if c.suspend then [.suspendCheck] else [])
    ++ (if c.stackOverflow then [.stackOverflow] else [])
    ++ (if c.null then [.nullPointer] else [])

end ImplicitChecks

structure FaultManager where
  isa : Isa
  handlers : List FaultKind
  ranges : List CodeRange := []
deriving DecidableEq, Repr

/-- How a fault ended: who handled it, if anyone, and the trap and thread as
they go on. -/
structure FaultOutcome where
  handledBy : Option FaultKind
  trap : Trap
  thread : Option ThreadRecord

namespace FaultManager

def ofChecks (isa : Isa) (checks : ImplicitChecks) : FaultManager :=
  { isa, handlers := checks.handlers }

/-- Adds a handler behind the others. -/
def addHandler (m : FaultManager) (k : FaultKind) : FaultManager :=
  { m with handlers := m.handlers ++ [k] }

def register (m : FaultManager) (r : CodeRange) : FaultManager :=
  { m with ranges := m.ranges ++ [r] }

/-- Forgets what starts at an address. -/
def unregister (m : FaultManager) (start : Nat) : FaultManager :=
  { m with ranges := m.ranges.filter (·.start ≠ start) }

/-- Whether some range starts at an address. -/
def knows (m : FaultManager) (start : Nat) : Bool := m.ranges.any (·.start = start)

/-- The range an address lies in; the earliest registered one if there are
several. -/
def range? (m : FaultManager) (pc : Nat) : Option CodeRange := m.ranges.find? (·.contains pc)

def inGeneratedCode (m : FaultManager) (pc : Nat) : Bool := (m.range? pc).isSome

/-- Tries handlers in order; the first one that recognises the trap ends
it. -/
def tryHandlers (isa : Isa) (range : CodeRange) :
    List FaultKind → Fault.Handling (Option FaultKind)
  | [] => return none
  | k :: rest => do
      if ← k.recover isa range then return some k else tryHandlers isa range rest

/-- Runs the handlers for a fault taken by a thread. -/
def handle (m : FaultManager) (t : Trap) (thread : Option ThreadRecord) :
    Except Violation FaultOutcome :=
  match thread with
  | none => .ok ⟨none, t, none⟩
  | some record =>
      if record.state ≠ .runnable ∨ t.sp = 0 then .ok ⟨none, t, some record⟩
      else
        match m.range? t.pc with
        | none => .ok ⟨none, t, some record⟩
        | some range => do
            let (k, s) ← (tryHandlers m.isa range m.handlers).run ⟨t, record⟩
            return ⟨k, s.trap, some s.thread⟩

end FaultManager

end Crossing
