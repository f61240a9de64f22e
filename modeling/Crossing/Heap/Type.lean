import Crossing.Heap.Store
import Crossing.Service.Thrown

/-
What the services ask about objects: whether one is an instance of a class,
and how two strings compare.
-/
namespace Crossing.Heap

-- ============================================================ subtypes

/-- The superclass of a class, if it has one. -/
def superclass? (h : Heap) (klass : Nat) : Option Nat :=
  match h.object? klass with
  | some { body := .classOf superclass, .. } => if superclass = 0 then none else some superclass
  | _ => none

/-- Whether a class is another one or below it. A superclass is older than
its subclasses and so has the smaller address. -/
def isSubclass (h : Heap) (klass other : Nat) : Bool :=
  if klass = other then true
  else
    match h.superclass? klass with
    | none => false
    | some superclass => if superclass < klass then h.isSubclass superclass other else false
termination_by klass

/-- The class of an object, if its header has one. -/
def classOf? (h : Heap) (address : Nat) : Option Nat :=
  (h.object? address).bind fun o => if o.klass = 0 then none else some o.klass

/-- Whether an object is an instance of a class; null is of none, and
nothing is of null. -/
def instanceOf (h : Heap) (address klass : Nat) : Bool :=
  address ≠ 0 && klass ≠ 0 && (h.classOf? address).any (h.isSubclass · klass)

/-- Demands that an object is null or an instance of a class. -/
def checkInstanceOf (h : Heap) (address klass : Nat) : Except Thrown Unit :=
  if address ≠ 0 && !h.instanceOf address klass then .error .classCast else .ok ()

-- ============================================================= strings

/-- The units of the string at an address. -/
def chars (h : Heap) (address : Nat) : List UInt16 :=
  match h.object? address with
  | some { body := .text chars, .. } => chars
  | _ => []

/-- Difference of the first two units that differ, or of the lengths. -/
def compareUnits : List UInt16 → List UInt16 → Int
  | a :: as, b :: bs => if a = b then compareUnits as bs else (a.toNat : Int) - b.toNat
  | as, bs => (as.length : Int) - bs.length

/-- The difference of two 32-bit integers, refused when it does not fit. -/
def subInt32 (a b : Int32) : Except Violation Int32 :=
  if -2 ^ 31 ≤ a.toInt - b.toInt ∧ a.toInt - b.toInt < 2 ^ 31 then .ok (a - b)
  else .error .subOverflow

/-- The first units in the same place that differ. -/
def firstDifference? (as bs : List UInt16) : Option (UInt16 × UInt16) :=
  (as.zip bs).find? fun (a, b) => a ≠ b

/-- The difference as it is computed, with the lengths as 32-bit integers. -/
def compareInt32 (as bs : List UInt16) : Except Violation Int32 :=
  match firstDifference? as bs with
  | some (a, b) => subInt32 (.ofNat a.toNat) (.ofNat b.toNat)
  | none => subInt32 (.ofNat as.length) (.ofNat bs.length)

/-- Compares two strings; the second must not be null. -/
def compareStrings (h : Heap) (a b : Nat) : Except Thrown Int :=
  if b = 0 then .error (.nullPointer 0) else .ok (compareUnits (h.chars a) (h.chars b))

/-- Raises an object as the pending exception. -/
def deliver (exception : Nat) : Thrown := .pending exception

end Crossing.Heap
