import Crossing.Violation

/-
The collector as compiled code sees it: whether marking is going on, and a
count of what has been done. What marking does to threads is in
`Thread.World`, what it does to objects in `Heap.Marking`.
-/
namespace Crossing

/-- The collector's own state. -/
structure Collector where
  marking : Bool := false
  /-- Completed marking phases. -/
  cycles : Nat := 0
  /-- Objects marked in all completed phases together. -/
  objectsMarked : Nat := 0
deriving DecidableEq, Repr

namespace Collector

def phase (c : Collector) : String := if c.marking then "marking" else "idle"

/-- A phase starts only when none is going on, and ends only when one is. -/
def admits (c : Collector) (marking : Bool) : Except Violation Unit :=
  if c.marking = marking then .error (if marking then .alreadyMarking else .notMarking)
  else .ok ()

/-- Books a completed phase that marked `n` objects. -/
def book (c : Collector) (n : Nat) : Collector :=
  { c with cycles := c.cycles + 1, objectsMarked := c.objectsMarked + n }

end Collector

end Crossing
