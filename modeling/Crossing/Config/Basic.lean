import Crossing.Fault.Manager

/-
The configuration of a runtime: what it compiles for, how it collects, and
which checks it leaves to the hardware.
-/
namespace Crossing

/-- How garbage is collected. -/
inductive GcMode where
  /-- With the world stopped; no read barriers. -/
  | stopTheWorld
  /-- While the program runs, with read barriers during marking. -/
  | concurrentCopying
deriving DecidableEq, Repr

namespace GcMode

/-- The name in a configuration file. -/
def name : GcMode → String
  | stopTheWorld => "stw"
  | concurrentCopying => "concurrent_copying"

def all : List GcMode := [stopTheWorld, concurrentCopying]

def usesReadBarriers (m : GcMode) : Bool := m = concurrentCopying

end GcMode

structure RuntimeConfig where
  /-- The machine's own if none is given. -/
  isa : Option Isa := none
  gcMode : GcMode := .stopTheWorld
  debuggable : Bool := false
  implicitChecks : ImplicitChecks := {}
  /-- Invocations after which a native method gets a stub. -/
  jitThreshold : UInt32 := 1000
  traceJit : Bool := false
  features : Features := {}
deriving DecidableEq, Repr

namespace RuntimeConfig

/-- The instruction set to compile for. -/
def resolvedIsa (c : RuntimeConfig) : Isa := c.isa.getD .host

/-- The traps that compiled code may rely on. A debuggable runtime makes
every check explicit. -/
def reliedChecks (c : RuntimeConfig) : ImplicitChecks :=
  if c.debuggable then .off else c.implicitChecks

end RuntimeConfig

end Crossing
