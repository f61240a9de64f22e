import Crossing.Reference.Handle

/-
Tables of references. A local table belongs to one thread; its slots lie
one behind the other at fixed addresses and are used as a stack, so that
leaving native code drops what it created. The global table only grows.
-/
namespace Crossing

-- ======================================================== local table

/-- The local references of one thread. `slots` holds every slot of the
table, used or not; unused ones are null. -/
structure LocalTable where
  /-- Address of the first slot, a multiple of four. -/
  base : Nat
  slots : List HeapRef
  top : Nat := 0
deriving DecidableEq, Repr

namespace LocalTable

def ofCapacity (base capacity : Nat) : LocalTable := { base, slots := .replicate capacity 0 }

def capacity (t : LocalTable) : Nat := t.slots.length

/-- Address of a slot. -/
def address (t : LocalTable) (i : Nat) : Nat := t.base + 4 * i

/-- Adds a reference at the top. Null needs no slot. -/
def add (t : LocalTable) (r : HeapRef) : Except HandleError (Handle × LocalTable) :=
  if r = 0 then .ok (.null, t)
  else if t.top < t.capacity then
    .ok (.ofSlot (t.address t.top), { t with slots := t.slots.set t.top r, top := t.top + 1 })
  else .error (.localTableFull t.capacity)

/-- Drops every reference from number `cookie` on. -/
def popFrame (t : LocalTable) (cookie : Nat) : LocalTable :=
  let keep := min cookie t.top
  { t with
    slots := t.slots.take keep ++ .replicate (t.top - keep) 0 ++ t.slots.drop t.top
    top := keep }

/-- What the slot at an address holds, if it is one of this table's. -/
def read? (t : LocalTable) (addr : Nat) : Option HeapRef :=
  if t.base ≤ addr ∧ (addr - t.base) % 4 = 0 then t.slots[(addr - t.base) / 4]? else none

end LocalTable

-- ======================================================= global table

/-- The references that outlive a native call. -/
structure GlobalTable where
  entries : Array HeapRef := #[]
deriving DecidableEq, Repr

namespace GlobalTable

/-- Adds a reference behind the others. Null needs no entry. -/
def add (t : GlobalTable) (r : HeapRef) (weak : Bool) : Handle × GlobalTable :=
  if r = 0 then (.null, t)
  else (.ofEntry t.entries.size weak, ⟨t.entries.push r⟩)

def get (t : GlobalTable) (h : Handle) : Except HandleError HeapRef :=
  match t.entries[h.entry]? with
  | some r => .ok r
  | none => .error (.invalidGlobal h)

end GlobalTable

-- ============================================================ decoding

/-- The reference a handle stands for. `read` gives the 32-bit word at a
slot's address. -/
def Handle.decode (read : Nat → HeapRef) (globals : GlobalTable) (h : Handle) :
    Except HandleError HeapRef :=
  if h = .null then .ok 0
  else if h.kind.isGlobal then globals.get h
  else .ok (read h.slot)

/-- Every place a handle can point to: a local table, the slots of
transition frames and the global table. -/
structure ReferenceSpace where
  locals : LocalTable
  /-- Address and content of each transition slot. -/
  frames : List (Nat × HeapRef) := []
  globals : GlobalTable := {}
deriving Repr

namespace ReferenceSpace

def read (s : ReferenceSpace) (addr : Nat) : HeapRef :=
  ((s.locals.read? addr).or (s.frames.lookup addr)).getD 0

def decode (s : ReferenceSpace) (h : Handle) : Except HandleError HeapRef :=
  h.decode s.read s.globals

/-- Puts a reference into a fresh slot of a transition frame, above
everything else, and gives the slot's address. -/
def spill (s : ReferenceSpace) (r : HeapRef) : Handle × ReferenceSpace :=
  let addr := s.locals.address s.locals.capacity + 4 * s.frames.length
  (⟨addr⟩, { s with frames := (addr, r) :: s.frames })

end ReferenceSpace

end Crossing
