import Crossing.Code.Buffer
import Crossing.Glue.A64
import Crossing.Glue.X86

/-
An assembler for glue code: a code buffer that takes operations one after
the other, hands out labels and checks that they come back to the assembler
they are from, and is finalized once, when the branches are patched.
-/
namespace Crossing.Glue

open Code

/-- The machines glue code can be assembled for. -/
inductive Target where
  | x86_64
  /-- ARM64, with or without single-instruction compare-and-swap. -/
  | arm64 (lse : Bool)
deriving DecidableEq, Repr

/-- There is no assembler for an instruction set. -/
structure Unsupported where
  isa : Isa
deriving DecidableEq, Repr

def Unsupported.message (u : Unsupported) : String := s!"no JNI macro-assembler for {u.isa.name}"

namespace Target

def isa : Target → Isa
  | x86_64 => .x86_64
  | arm64 _ => .arm64

/-- The target for an instruction set with its features. -/
def ofIsa (isa : Isa) (features : Features) : Except Unsupported Target :=
  match isa with
  | .x86_64 => .ok .x86_64
  | .arm64 => .ok (.arm64 features.lseAtomics)
  | isa => .error ⟨isa⟩

end Target

/-- Why no assembler can be made for an instruction set and a feature list. -/
inductive SetupError where
  | unsupported (u : Unsupported)
  | features (u : Features.Unknown)
deriving DecidableEq, Repr

def SetupError.message : SetupError → String
  | unsupported u => u.message
  | features u => s!"invalid instruction set features: {u.message}"

/-- The target for an instruction set and a feature list; the list is read
first. -/
def Target.ofVariant (isa : Isa) (variant : String) : Except SetupError Target :=
  match Features.parse isa variant with
  | .error u => .error (.features u)
  | .ok features =>
      match ofIsa isa features with
      | .error u => .error (.unsupported u)
      | .ok target => .ok target

/-- An assembler in use. -/
structure Assembler where
  target : Target
  /-- Tells assemblers apart, so that a label is used only with its own. -/
  owner : Nat
  buffer : CodeBuffer := {}
  finalized : Bool := false
  /-- Distance from the stack pointer to the caller's frame. -/
  cfaOffset : Nat := 0

namespace Assembler

def isa (a : Assembler) : Isa := a.target.isa

/-- Hands out a label. -/
def createLabel (a : Assembler) : Label × Assembler :=
  let (index, buffer) := a.buffer.newLabel
  (⟨a.isa, a.owner, index⟩, { a with buffer })

/-- Checks that a label was handed out here. -/
def checkLabel (a : Assembler) (l : Label) : Except Violation Unit :=
  if l.isa ≠ a.isa then .error (.labelOfOtherIsa l.isa a.isa)
  else if l.owner ≠ a.owner then .error .labelOfOtherAssembler
  else .ok ()

/-- The encoded items of an operation. -/
def lower (target : Target) (op : Op) (next : Nat) : Except Violation (Emission Encoding) :=
  let encoded {ι : Type} (encode : ι → Encoding) (e : Emission ι) : Emission Encoding :=
    ⟨e.items.map fun
      | .instr i => .instr (encode i)
      | .bind l => .bind l, e.next⟩
  match target with
  | .x86_64 => (X86.lower op next).map (encoded Crossing.X86.Instr.encode)
  | .arm64 lse => (A64.lower lse op next).map (encoded Crossing.A64.Instr.encode)

def cfaAfter (target : Target) (cfa : Nat) (op : Op) : Except Violation Nat :=
  match target with
  | .x86_64 => X86.cfaAfter cfa op
  | .arm64 _ => A64.cfaAfter cfa op

/-- Appends items to a buffer. -/
def append (b : CodeBuffer) : List (Item Encoding) → Except Violation CodeBuffer
  | [] => .ok b
  | .instr e :: items => append (b.emit e) items
  | .bind l :: items => do append (← b.bind l) items

/-- Hands out labels up to number `n`. -/
def reserve (b : CodeBuffer) (n : Nat) : CodeBuffer :=
  { b with labels := b.labels ++ Array.replicate (n - b.labels.size) none }

/-- Carries out one operation. -/
def apply (a : Assembler) (op : Op) : Except Violation Assembler := do
  op.labels.forM a.checkLabel
  let e ← lower a.target op a.buffer.labels.size
  let cfaOffset ← cfaAfter a.target a.cfaOffset op
  let buffer ← append (reserve a.buffer e.next) e.items
  return { a with buffer, cfaOffset }

/-- Carries out operations in order. -/
def applyAll (a : Assembler) (ops : List Op) : Except Violation Assembler := ops.foldlM apply a

/-- Patches the branches. An assembler is finalized once. -/
def finalize (a : Assembler) : Except Violation Assembler := do
  if a.finalized then throw .finalizedTwice
  let (failure, buffer) ← a.buffer.resolve
  match failure with
  | some (.unbound label) => throw (.labelUnbound a.isa label)
  | some (.outOfRange label) => throw (.branchTooFar a.isa label)
  | none => return { a with buffer, finalized := true }

/-- The length of finalized code. -/
def codeSize (a : Assembler) : Except Violation Nat :=
  if a.finalized then .ok a.buffer.size else .error .notFinalized

/-- Finalized code. -/
def code (a : Assembler) : Except Violation (Array UInt8) := do
  let _ ← a.codeSize
  return a.buffer.code

/-- Copies finalized code to the start of a region; the rest of the region
stays as it is. -/
def copyTo (a : Assembler) (region : Array UInt8) : Except Violation (Array UInt8) := do
  let size ← a.codeSize
  if region.size < size then throw (.regionTooSmall region.size size)
  return a.buffer.code ++ region.extract size region.size

/-- The handle of a register that holds `size` bytes. -/
def withSize (a : Assembler) (src : Register) (size : Nat) : Except Violation Register :=
  match a.target with
  | .x86_64 => X86.withSize src size
  | .arm64 _ => A64.withSize src size

end Assembler

end Crossing.Glue
