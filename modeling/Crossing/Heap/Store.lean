import Crossing.Layout.ThreadBlock

/-
The heap: objects one behind the other in a block of memory below 4 GiB, so
that an object's address is its own 32-bit reference. Address zero is null.
Objects are never freed one by one.
-/
namespace Crossing

/-- Why the heap could not be made or an object not be put in it. -/
inductive HeapError where
  | noLowMemory (capacity : Nat)
  | exhausted (requested remaining : Nat)
  /-- The room that is left cannot even be computed. -/
  | refused (v : Violation)
deriving DecidableEq, Repr

namespace HeapError

def message : HeapError → String
  | noLowMemory capacity => s!"could not reserve {capacity} bytes below 4 GiB"
  | exhausted requested remaining =>
      s!"heap exhausted: {requested} bytes requested, {remaining} remaining"
  | refused v => v.message

end HeapError

-- ============================================================= objects

/-- What follows an object's header. -/
inductive ObjectBody where
  | plain
  /-- A class refers to its superclass, or to null. -/
  | classOf (superclass : Nat)
  | text (chars : List UInt16)
deriving DecidableEq, Repr

/-- An object: a header of class reference and lock word, and a body. -/
structure HeapObject where
  klass : Nat
  lockWord : UInt32 := 0
  body : ObjectBody := .plain
deriving DecidableEq, Repr

namespace ObjectBody

/-- Bytes of an object with this body, before rounding. -/
def size : ObjectBody → Nat
  | plain => 8
  | classOf _ => 16
  | text chars => 16 + 2 * chars.length

end ObjectBody

/-- The same computed in machine words. -/
def Heap.bodyWord : ObjectBody → Except Violation Nat
  | .text chars => do addWord 16 (← addWord chars.length chars.length)
  | body => return body.size

namespace HeapObject

def isMarked (o : HeapObject) : Bool := o.lockWord &&& ObjectHeader.markBitMask ≠ 0

def setMark (o : HeapObject) : HeapObject :=
  { o with lockWord := o.lockWord ||| ObjectHeader.markBitMask }

def clearMark (o : HeapObject) : HeapObject :=
  { o with lockWord := o.lockWord &&& ~~~ObjectHeader.markBitMask }

/-- The 32-bit reference at an offset into the object. -/
def reference (o : HeapObject) (offset : Nat) : Nat :=
  match offset, o.body with
  | 0, _ => o.klass
  | 8, .classOf superclass => superclass
  | _, _ => 0

end HeapObject

-- =============================================================== heap

/-- Objects start at multiples of this. -/
def objectAlignment : Nat := 8

structure Heap where
  base : Nat
  capacity : Nat
  /-- Bytes in use. -/
  top : Nat := objectAlignment
  /-- The objects by address, in the order they were made. -/
  objects : List (Nat × HeapObject) := []
deriving DecidableEq, Repr

namespace Heap

/-- Where the heap is put. -/
def lowBase : Nat := 0x40000000

/-- The most the system has to give below 4 GiB. -/
def lowRoom : Nat := 0x40000000

/-- A heap of a capacity. Its first bytes stay unused, so that no object
has the null reference. -/
def ofCapacity (capacity : Nat) : Except HeapError Heap :=
  if 0 < capacity ∧ capacity ≤ lowRoom then .ok { base := lowBase, capacity }
  else .error (.noLowMemory capacity)

/-- Whether an address lies in the heap. -/
def contains (h : Heap) (address : Nat) : Bool :=
  h.base ≤ address && address < h.base + h.capacity

/-- A size rounded up to whole alignment units. -/
def rounded (size : Nat) : Nat := (size + objectAlignment - 1) / objectAlignment * objectAlignment

/-- The same in machine words, by clearing the bits below the alignment. -/
def roundedWord (size : Nat) : Except Violation Nat := do
  let behind ← addWord size objectAlignment
  let last ← subWord behind 1
  return (UInt64.ofNat last &&& ~~~UInt64.ofNat (objectAlignment - 1)).toNat

/-- Puts an object behind the others. -/
def alloc (h : Heap) (o : HeapObject) : Except HeapError (Nat × Heap) :=
  let size := rounded o.body.size
  if h.top + size ≤ h.capacity then
    let address := h.base + h.top
    .ok (address, { h with top := h.top + size, objects := h.objects ++ [(address, o)] })
  else
    match subWord h.capacity h.top with
    | .ok remaining => .error (.exhausted size remaining)
    | .error v => .error (.refused v)

/-- A class; the class of a class is left null. -/
def allocClass (h : Heap) (superclass : Nat) : Except HeapError (Nat × Heap) :=
  h.alloc { klass := 0, body := .classOf superclass }

def allocObject (h : Heap) (klass : Nat) : Except HeapError (Nat × Heap) := h.alloc { klass }

/-- The UTF-16 units of a character. -/
def units (c : Char) : List UInt16 :=
  let n := c.toNat
  if n < 0x10000 then [UInt16.ofNat n]
  else
    let m := n - 0x10000
    [UInt16.ofNat (0xD800 + m / 0x400), UInt16.ofNat (0xDC00 + m % 0x400)]

def allocString (h : Heap) (klass : Nat) (value : String) : Except HeapError (Nat × Heap) :=
  h.alloc { klass, body := .text (value.toList.flatMap units) }

/-- The object at an address. -/
def object? (h : Heap) (address : Nat) : Option HeapObject := h.objects.lookup address

/-- Changes the object at an address. -/
def modify (h : Heap) (address : Nat) (f : HeapObject → HeapObject) : Heap :=
  { h with objects := h.objects.map fun p => if p.1 = address then (p.1, f p.2) else p }

/-- The 32-bit reference of an address. -/
def referenceOf (address : Nat) : Except Violation Nat :=
  if address < 2 ^ 32 then .ok address else .error (.outsideHeap address)

end Heap

end Crossing
