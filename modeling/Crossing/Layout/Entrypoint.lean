import Crossing.Violation

/-
The runtime services that generated code calls through its thread, in the
order of their slots, followed by one slot for each register's mark routine.
-/
namespace Crossing

/-- A runtime service with a slot of its own. -/
inductive Entrypoint where
  | instanceofNonTrivial
  | checkInstanceOf
  | cos
  | sin
  | acos
  | asin
  | atan
  | atan2
  | pow
  | cbrt
  | cosh
  | exp
  | expm1
  | hypot
  | log
  | log10
  | nextAfter
  | sinh
  | tan
  | tanh
  | fmod
  | fmodf
  | idivmod
  | d2l
  | f2l
  | ldiv
  | lmod
  | lmul
  | shlLong
  | shrLong
  | ushrLong
  | stringCompareTo
  | memcpy
  | jniMethodStart
  | jniMethodEnd
  | readBarrierJni
  | jniDecodeReferenceResult
  | testSuspend
  | deliverException
  | throwNullPointerFromSignal
  | throwStackOverflow
  | readBarrierSlow
  | readBarrierForRootSlow
deriving DecidableEq, Repr

namespace Entrypoint

/-- Every service, in slot order. -/
def all : List Entrypoint :=
  [instanceofNonTrivial, checkInstanceOf, cos, sin, acos, asin, atan, atan2, pow, cbrt, cosh, exp,
    expm1, hypot, log, log10, nextAfter, sinh, tan, tanh, fmod, fmodf, idivmod, d2l, f2l, ldiv,
    lmod, lmul, shlLong, shrLong, ushrLong, stringCompareTo, memcpy, jniMethodStart, jniMethodEnd,
    readBarrierJni, jniDecodeReferenceResult, testSuspend, deliverException,
    throwNullPointerFromSignal, throwStackOverflow, readBarrierSlow, readBarrierForRootSlow]

/-- The name of a service. -/
def name : Entrypoint → String
  | instanceofNonTrivial => "InstanceofNonTrivial"
  | checkInstanceOf => "CheckInstanceOf"
  | cos => "Cos"
  | sin => "Sin"
  | acos => "Acos"
  | asin => "Asin"
  | atan => "Atan"
  | atan2 => "Atan2"
  | pow => "Pow"
  | cbrt => "Cbrt"
  | cosh => "Cosh"
  | exp => "Exp"
  | expm1 => "Expm1"
  | hypot => "Hypot"
  | log => "Log"
  | log10 => "Log10"
  | nextAfter => "NextAfter"
  | sinh => "Sinh"
  | tan => "Tan"
  | tanh => "Tanh"
  | fmod => "Fmod"
  | fmodf => "Fmodf"
  | idivmod => "Idivmod"
  | d2l => "D2l"
  | f2l => "F2l"
  | ldiv => "Ldiv"
  | lmod => "Lmod"
  | lmul => "Lmul"
  | shlLong => "ShlLong"
  | shrLong => "ShrLong"
  | ushrLong => "UshrLong"
  | stringCompareTo => "StringCompareTo"
  | memcpy => "Memcpy"
  | jniMethodStart => "JniMethodStart"
  | jniMethodEnd => "JniMethodEnd"
  | readBarrierJni => "ReadBarrierJni"
  | jniDecodeReferenceResult => "JniDecodeReferenceResult"
  | testSuspend => "TestSuspend"
  | deliverException => "DeliverException"
  | throwNullPointerFromSignal => "ThrowNullPointerFromSignal"
  | throwStackOverflow => "ThrowStackOverflow"
  | readBarrierSlow => "ReadBarrierSlow"
  | readBarrierForRootSlow => "ReadBarrierForRootSlow"

def ofName? (s : String) : Option Entrypoint := all.find? (·.name = s)

/-- The name of the slot. -/
def slotName (e : Entrypoint) : String := "p" ++ e.name

/-- Number of fixed slots. -/
def count : Nat := all.length

/-- Number of the slot. -/
def index (e : Entrypoint) : Nat := all.idxOf e

/-- Offset of the slot in the table. -/
def offset (e : Entrypoint) (ps : PointerSize) : Nat := e.index * ps.bytes

/-- Number of mark slots, which follow the fixed ones. -/
def markCount : Nat := 30

/-- Number of all slots. -/
def slotCount : Nat := count + markCount

/-- Number of a mark slot in the table. -/
def markIndex (slot : Nat) : Except Violation Nat :=
  if slot < markCount then .ok (count + slot) else .error (.noMarkSlot slot)

end Entrypoint

end Crossing
