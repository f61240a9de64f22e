import Crossing.Heap.Store
import Crossing.Reference.Handle

/-
Requests to a heap. Everything in a heap was asked for as a class, as a plain
object or as a string. `serve` answers on numbers without bound; `serveWords`
answers as the machine does, where a sum or a difference has to be a word.
-/
namespace Crossing.Heap

/-- What a heap can be asked for. -/
inductive Request where
  | newClass (superclass : HeapRef)
  | newObject (klass : HeapRef)
  | newString (klass : HeapRef) (value : String)

namespace Request

/-- The object that is asked for. -/
def object : Request → HeapObject
  | newClass superclass => { klass := 0, body := .classOf superclass.toNat }
  | newObject klass => { klass := klass.toNat }
  | newString klass value => { klass := klass.toNat, body := .text (value.toList.flatMap units) }

/-- Bytes of its block. -/
def size (r : Request) : Nat := rounded r.object.body.size

/-- The same in machine words. -/
def sizeWord (r : Request) : Except Violation Nat := do roundedWord (← bodyWord r.object.body)

/-- The class that a new object refers to, or a new class lies below. -/
def upper : Request → HeapRef
  | newClass superclass => superclass
  | newObject klass => klass
  | newString klass _ => klass

end Request

-- ============================================================== answers

/-- Answers a request. -/
def serve (h : Heap) : Request → Except HeapError (Nat × Heap)
  | .newClass superclass => h.allocClass superclass.toNat
  | .newObject klass => h.allocObject klass.toNat
  | .newString klass value => h.allocString klass.toNat value

/-- Where the heap would be used up to, if it has the room. -/
def stop? (h : Heap) (size : Nat) : Option Nat :=
  (addWord h.top size).toOption.filter (· ≤ h.capacity)

/-- The answer without room: how much there is. -/
def exhausted (h : Heap) (size : Nat) : Except HeapError (Nat × Heap) := do
  let remaining ← (subWord h.capacity h.top).mapError .refused
  throw (.exhausted size remaining)

/-- Puts the object that is asked for behind the others. The class it refers
to has to have a reference. -/
def grant (h : Heap) (r : Request) (stop : Nat) : Except HeapError (Nat × Heap) := do
  let address ← (addWord h.base h.top).mapError .refused
  let _ ← (referenceOf r.upper.toNat).mapError .refused
  return (address, { h with top := stop, objects := h.objects ++ [(address, r.object)] })

/-- Answers a request, with every number in a machine word. -/
def serveWords (h : Heap) (r : Request) : Except HeapError (Nat × Heap) := do
  let size ← r.sizeWord.mapError .refused
  match h.stop? size with
  | some stop => h.grant r stop
  | none => h.exhausted size

end Crossing.Heap
