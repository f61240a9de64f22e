import Crossing.Cache.Method
import Crossing.Collector
import Crossing.Heap.Store

/-
Marking objects. Reading a reference while marking is going on marks the
object it leads to; an object that was not marked yet is remembered, and
the end of the phase clears exactly what is remembered.
-/
namespace Crossing

/-- A heap with its collector. -/
structure MarkedHeap where
  heap : Heap
  collector : Collector := {}
  /-- The objects marked since the last phase ended, the first one first. -/
  stack : List Nat := []
  /-- How often the mark routine of each register has run. -/
  calls : Nat → Nat := fun _ => 0

namespace MarkedHeap

/-- Number of mark routines. -/
def routineCount : Nat := 32

/-- Sets the mark bit of an object; whether it was clear before. -/
def setMarkBit (m : MarkedHeap) (address : Nat) : Bool × MarkedHeap :=
  ((m.heap.object? address).any (!·.isMarked),
    { m with heap := m.heap.modify address (·.setMark) })

def clearMarkBit (m : MarkedHeap) (address : Nat) : MarkedHeap :=
  { m with heap := m.heap.modify address (·.clearMark) }

/-- Marks an object and remembers it if it was not marked. Null stays
null. -/
def mark (m : MarkedHeap) (address : Nat) : MarkedHeap :=
  if address = 0 then m
  else
    match m.setMarkBit address with
    | (true, m) => { m with stack := m.stack ++ [address] }
    | (false, m) => m

/-- Marks through the routine of a register. -/
def markFrom (m : MarkedHeap) (register address : Nat) : Except Violation MarkedHeap :=
  if register < routineCount then
    .ok ({ m with calls := fun r => m.calls r + if r = register then 1 else 0 }.mark address)
  else .error (.indexOutOfBounds routineCount register)

/-- Reads the reference at an offset into an object and marks what it leads
to. -/
def readField (m : MarkedHeap) (address offset : Nat) : Nat × MarkedHeap :=
  let r := ((m.heap.object? address).map (·.reference offset)).getD 0
  (r, m.mark r)

/-- Reads the reference a root slot holds and marks what it leads to. -/
def readRoot (m : MarkedHeap) (slot : HeapRef) : Nat × MarkedHeap := (slot.toNat, m.mark slot.toNat)

/-- Marks the class that declares a method, if there is a method. -/
def markDeclaring (m : MarkedHeap) (method : Option Method) : MarkedHeap :=
  match method with
  | none => m
  | some method => m.mark method.declaringClass.toNat

/-- Starts a phase. -/
def start (m : MarkedHeap) : Except Violation MarkedHeap := do
  m.collector.admits true
  return { m with collector := { m.collector with marking := true } }

/-- Ends a phase: clears what is remembered and counts it. -/
def finish (m : MarkedHeap) : Except Violation (Nat × MarkedHeap) := do
  m.collector.admits false
  let n := m.stack.length
  return (n, { m with
    heap := m.stack.foldl (fun h a => h.modify a (·.clearMark)) m.heap
    collector := { m.collector with marking := false }.book n
    stack := [] })

end MarkedHeap

end Crossing
