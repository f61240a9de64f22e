import Crossing.Argument.Convention
import Crossing.Reference.Handle

/-
Method records as generated code and its compiler see them.
-/
namespace Crossing

/-- A method. Its address names it to the fault handlers. -/
structure Method where
  address : Nat
  declaringClass : HeapRef := 0
  flags : UInt32
  index : UInt32
  /-- Native code registered for the method. -/
  jniEntry : Nat := 0
  /-- Compiled code; zero while the method is interpreted. -/
  quickEntry : Nat := 0
deriving DecidableEq, Repr

/-- The access flags that matter for native methods. -/
inductive AccessFlag where
  | static
  | synchronized
  | native
  | fastNative
  | criticalNative
deriving DecidableEq, Repr

namespace AccessFlag

def mask : AccessFlag → UInt32
  | static => 0x8
  | synchronized => 0x20
  | native => 0x100
  | fastNative => 0x80000
  | criticalNative => 0x200000

/-- Whether a set of flags has this one. -/
def isIn (f : AccessFlag) (flags : UInt32) : Bool := flags &&& f.mask ≠ 0

end AccessFlag

namespace NativeKind

/-- The kind of a native method: critical outranks fast. -/
def ofFlags (flags : UInt32) : NativeKind :=
  if AccessFlag.criticalNative.isIn flags then .critical
  else if AccessFlag.fastNative.isIn flags then .fast
  else .normal

end NativeKind

namespace Method

def has (m : Method) (f : AccessFlag) : Bool := f.isIn m.flags

def isNative (m : Method) : Bool := m.has .native

end Method

end Crossing
