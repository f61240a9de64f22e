import Crossing.Text.Blank

/-
The instruction sets a runtime can be built for, and the optional
capabilities that change which instructions the glue code may use.
-/
namespace Crossing

-- ================================================== instruction sets

/-- A target instruction set. -/
inductive Isa where
  | arm
  | arm64
  | x86
  | x86_64
  | riscv64
deriving DecidableEq, Repr

/-- Width of a native pointer. -/
inductive PointerSize where
  | four
  | eight
deriving DecidableEq, Repr

namespace PointerSize

/-- A pointer's size in bytes. -/
def bytes : PointerSize → Nat
  | four => 4
  | eight => 8

end PointerSize

namespace Isa

/-- Every instruction set, in the order the runtime lists them. -/
def all : List Isa := [arm, arm64, x86, x86_64, riscv64]

/-- The instruction set of the machine the runtime runs on. -/
def host : Isa := x86_64

/-- The one name an instruction set is printed under. -/
def name : Isa → String
  | arm => "arm"
  | arm64 => "arm64"
  | x86 => "x86"
  | x86_64 => "x86_64"
  | riscv64 => "riscv64"

/-- Reads a name; three sets have a second spelling. -/
def ofName? (s : String) : Option Isa :=
  if s = "arm" ∨ s = "thumb2" then some arm
  else if s = "arm64" ∨ s = "aarch64" then some arm64
  else if s = "x86" then some x86
  else if s = "x86_64" ∨ s = "x86-64" then some x86_64
  else if s = "riscv64" then some riscv64
  else none

/-- What is reported for a name that no instruction set has. -/
def unknownName (s : String) : String := s!"unknown instruction set: {s}"

def pointerSize : Isa → PointerSize
  | arm | x86 => .four
  | arm64 | x86_64 | riscv64 => .eight

def is64Bit (isa : Isa) : Bool := isa.pointerSize = .eight

/-- Bytes of a pointer, which is also the word the stack is moved by. -/
def wordBytes (isa : Isa) : Nat := isa.pointerSize.bytes

/-- Number of general-purpose registers a register allocator sees. -/
def coreRegisterCount : Isa → Nat
  | x86 => 8
  | arm | x86_64 => 16
  | arm64 | riscv64 => 32

/-- Bytes below the stack pointer that an implicit stack overflow check
probes. -/
def stackOverflowReservedBytes (_ : Isa) : Nat := 8 * 1024

/-- Alignment of a managed frame. -/
def stackAlignment (_ : Isa) : Nat := 16

end Isa

-- ========================================================== features

/-- Optional capabilities of a processor. -/
structure Features where
  /-- Compare-and-swap as one instruction on ARM64. -/
  lseAtomics : Bool := false
  avx2 : Bool := false
  zbb : Bool := false
deriving DecidableEq, Repr

namespace Features

/-- A feature list names something its instruction set does not have. -/
structure Unknown where
  item : String
  isa : Isa
deriving DecidableEq, Repr

def Unknown.message (u : Unknown) : String :=
  s!"unknown feature '{u.item}' for {u.isa.name}"

/-- Switches on the feature `item` of `isa`; `default` is a feature of
every set and switches on nothing. -/
def enable (isa : Isa) (f : Features) (item : String) : Except Unknown Features :=
  if item = "default" then .ok f
  else
    match isa with
    | .arm64 =>
        if item = "lse" ∨ item = "atomics" then .ok { f with lseAtomics := true }
        else .error ⟨item, isa⟩
    | .x86 | .x86_64 =>
        if item = "avx2" then .ok { f with avx2 := true } else .error ⟨item, isa⟩
    | .riscv64 =>
        if item = "zbb" then .ok { f with zbb := true } else .error ⟨item, isa⟩
    | .arm => .error ⟨item, isa⟩

/-- The items of a comma-separated list: trimmed, the empty ones left
out. -/
def items (s : String) : List String :=
  ((Text.splitAt ',' s.toList).map Text.trimmed).filterMap fun item =>
    if item.isEmpty then none else some (String.ofList item)

/-- Reads a feature list such as `lse,default`. The first item that is no
feature of `isa` is reported. -/
def parse (isa : Isa) (s : String) : Except Unknown Features :=
  (items s).foldlM (enable isa) {}

end Features

end Crossing
