import Crossing.Cache.Memory
import Crossing.Cache.Method
import Crossing.Fault.Manager
import Crossing.Stub

/-
The code cache: installed stubs by method index. Every stub has a block of
memory to itself. Installing points the method at its stub and tells the
fault manager where the code is. A stub that is replaced may still be
running somewhere; it is retired, and released only later.

Operations that can fail give the state back in either case, so that what a
failed operation leaves behind can be read off its result.
-/
namespace Crossing

/-- Why a stub could not be installed. -/
inductive CacheError where
  | memory (e : MemoryError)
  | isaMismatch (expected found : Isa)
deriving DecidableEq, Repr

namespace CacheError

def message : CacheError → String
  | memory e => e.message
  | isaMismatch expected found =>
      s!"stub compiled for {found.name} cannot be installed in a {expected.name} code cache"

end CacheError

/-- A stub in executable memory. -/
structure InstalledStub where
  memory : CodeMemory
  codeSize : Nat
  /-- Address of the method it was compiled for. -/
  method : Nat
  shorty : String
  kind : NativeKind

namespace InstalledStub

def entry (s : InstalledStub) : Nat := s.memory.base

def contains (s : InstalledStub) (pc : Nat) : Bool := s.entry ≤ pc && pc < s.entry + s.codeSize

/-- The code as the fault manager is told of it. -/
def range (s : InstalledStub) : CodeRange := ⟨s.entry, s.entry + s.codeSize, s.method⟩

def code (s : InstalledStub) : List UInt8 := s.memory.read 0 s.codeSize

end InstalledStub

structure CodeCache where
  isa : Isa
  /-- The live stubs, one a method index. -/
  stubs : List (UInt32 × InstalledStub) := []
  retired : List InstalledStub := []
  manager : Option FaultManager := none

namespace CodeCache

/-- Tells a manager of all live stubs, and of all to come. -/
def attach (c : CodeCache) (m : FaultManager) : CodeCache :=
  { c with manager := some (c.stubs.foldl (fun m s => m.register s.2.range) m) }

def stub? (c : CodeCache) (index : UInt32) : Option InstalledStub := c.stubs.lookup index

def entryPoint? (c : CodeCache) (index : UInt32) : Option Nat := (c.stub? index).map (·.entry)

/-- The method index whose live stub contains an address. -/
def lookup? (c : CodeCache) (pc : Nat) : Option UInt32 :=
  (c.stubs.find? fun s => s.2.contains pc).map (·.1)

/-- Whether the attached manager counts an address as generated code. -/
def inGeneratedCode (c : CodeCache) (pc : Nat) : Bool := c.manager.any (·.inGeneratedCode pc)

/-- Puts a stub in place under an index; the one it replaces is retired. -/
def put (c : CodeCache) (index : UInt32) (s : InstalledStub) : CodeCache :=
  let manager := c.manager.map (·.register s.range)
  match c.stub? index with
  | none => { c with stubs := c.stubs ++ [(index, s)], manager }
  | some old =>
      { c with
        stubs := c.stubs.map fun p => if p.1 = index then (index, s) else p
        retired := c.retired ++ [old]
        manager := manager.map (·.unregister old.entry) }

/-- Copies a stub into memory of its own and makes it the entry point of a
method. -/
def install (c : CodeCache) (os : MemorySystem) (m : Method) (s : Stub) :
    Except CacheError Nat × CodeCache × Method :=
  if s.isa ≠ c.isa then (.error (.isaMismatch c.isa s.isa), c, m)
  else
    match CodeMemory.ofCode s.code.toList os with
    | .error e => (.error (.memory e), c, m)
    | .ok memory =>
        let installed : InstalledStub :=
          { memory, codeSize := s.code.size, method := m.address, shorty := s.shorty,
            kind := s.kind }
        (.ok installed.entry, c.put m.index installed, { m with quickEntry := installed.entry })

/-- Gives up the memory of retired stubs. -/
def releaseRetired (c : CodeCache) : CodeCache := { c with retired := [] }

/-- Whether an address is the entry of a stub whose memory is still there. -/
def holds (c : CodeCache) (entry : Nat) : Bool :=
  c.stubs.any (·.2.entry = entry) || c.retired.any (·.entry = entry)

end CodeCache

end Crossing
