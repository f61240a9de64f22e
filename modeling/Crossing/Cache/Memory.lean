import Crossing.Violation

/-
Memory for code. A block is mapped writable, filled, and then made
executable for good; it is never both at once. Fresh memory is zero. Both
mapping and protecting are up to the operating system, which may refuse
(`MemorySystem`).
-/
namespace Crossing

/-- Why a block could not be mapped, written or made executable. -/
inductive MemoryError where
  | zeroSize
  | allocationFailed (size : Nat)
  | protectionFailed (reason : String)
  | outOfBounds (offset length size : Nat)
  | alreadyExecutable
  /-- The size cannot be rounded up to whole pages. -/
  | refused (v : Violation)
deriving DecidableEq, Repr

namespace MemoryError

def message : MemoryError → String
  | zeroSize => "zero-sized mapping"
  | allocationFailed size => s!"mmap of {size} bytes failed"
  | protectionFailed reason => s!"mprotect failed: {reason}"
  | outOfBounds offset length size =>
      s!"write of {length} bytes at offset {offset} does not fit in {size} bytes"
  | alreadyExecutable => "memory is already executable"
  | refused v => v.message

end MemoryError

-- ==================================================== operating system

/-- What the operating system answers when it is asked for memory. -/
structure MemorySystem where
  /-- Where a block of a size goes, if there is room. -/
  room? : Nat → Option Nat
  /-- A page has two to the power of this many bytes. -/
  pageBits : Nat := 12
  /-- Why a block at an address, of a size, cannot be made executable. -/
  refusal? : Nat → Nat → Option String := fun _ _ => none

namespace MemorySystem

/-- Bytes of a page. -/
def pageBytes (os : MemorySystem) : Nat := 2 ^ os.pageBits

/-- With no more known than where there is room, pages are of the usual size
and every block can be made executable. -/
instance : Coe (Nat → Option Nat) MemorySystem := ⟨fun room? => { room? }⟩

end MemorySystem

-- ======================================================= address space

/-- The addresses that have not been given out yet: all from `next` on. -/
structure AddressSpace where
  next : Nat := 0x10000
deriving DecidableEq, Repr

namespace AddressSpace

/-- Addresses a process has. -/
def limit : Nat := 2 ^ 46

/-- Where a block of a size would go, if there is room. -/
def room? (s : AddressSpace) (size : Nat) : Option Nat :=
  if s.next + size ≤ limit then some s.next else none

/-- Gives out the addresses of a block. -/
def take (s : AddressSpace) (size : Nat) : AddressSpace := ⟨s.next + size⟩

end AddressSpace

-- ============================================================== blocks

/-- A block of whole pages. -/
structure CodeMemory where
  base : Nat
  size : Nat
  executable : Bool := false
  /-- The byte at each offset. -/
  bytes : Nat → UInt8 := fun _ => 0

namespace CodeMemory

/-- The least multiple of the page size that is not below `size`. -/
def wholePages (os : MemorySystem) (size : Nat) : Except Violation Nat := do
  let rounded ← addWord size os.pageBytes
  return (rounded - 1) / os.pageBytes * os.pageBytes

/-- Maps at least `size` bytes where the operating system finds room. -/
def map (size : Nat) (os : MemorySystem) : Except MemoryError CodeMemory :=
  if size = 0 then .error .zeroSize
  else
    match wholePages os size with
    | .error v => .error (.refused v)
    | .ok size =>
        match os.room? size with
        | none => .error (.allocationFailed size)
        | some base => .ok { base, size }

/-- Whether `length` bytes at an offset lie in the block. -/
def fits (m : CodeMemory) (offset length : Nat) : Bool := offset + length ≤ m.size

/-- Copies bytes into a block that is still writable. -/
def write (m : CodeMemory) (offset : Nat) (data : List UInt8) : Except MemoryError CodeMemory :=
  if m.executable then .error .alreadyExecutable
  else if m.fits offset data.length then
    .ok { m with
      bytes := fun i => if offset ≤ i then (data[i - offset]?).getD (m.bytes i) else m.bytes i }
  else .error (.outOfBounds offset data.length m.size)

def makeExecutable (m : CodeMemory) : CodeMemory := { m with executable := true }

/-- Makes a block executable, unless the system has a reason against it. A
block that is executable already stays so. -/
def protect (m : CodeMemory) (refusal? : Option String) : Except MemoryError CodeMemory :=
  if m.executable then .ok m
  else
    match refusal? with
    | some reason => .error (.protectionFailed reason)
    | none => .ok m.makeExecutable

/-- An executable block that begins with `code`. -/
def ofCode (code : List UInt8) (os : MemorySystem) : Except MemoryError CodeMemory := do
  let m ← map code.length os
  let m ← m.write 0 code
  m.protect (os.refusal? m.base m.size)

def read (m : CodeMemory) (offset length : Nat) : List UInt8 :=
  (List.range length).map fun i => m.bytes (offset + i)

end CodeMemory

end Crossing
