import Crossing.Violation

/-
A buffer for machine code under construction: the bytes emitted so far, the
labels handed out, and the branch fields that still wait for their label's
position. Fields are patched all at once, in the order they were emitted,
when the code is complete.

The buffer does not know any instruction. An encoder describes one
instruction as an `Encoding`: its bytes, and where in them a displacement
has to be patched in.
-/
namespace Crossing.Code

-- ============================================================== bytes

/-- The `n` low bytes of a word, least significant first. -/
def littleEndian : Nat → Nat → List UInt8
  | 0, _ => []
  | n + 1, v => UInt8.ofNat v :: littleEndian n (v / 256)

/-- The number that bytes spell, least significant first. -/
def ofLittleEndian : List UInt8 → Nat
  | [] => 0
  | b :: bs => b.toNat + 256 * ofLittleEndian bs

/-- Overwrites the bytes from `at_` on; bytes past the end are dropped. -/
def overwrite (code : Array UInt8) (at_ : Nat) : List UInt8 → Array UInt8
  | [] => code
  | b :: bs => overwrite (code.setIfInBounds at_ b) (at_ + 1) bs

-- =========================================================== branches

/-- How a branch field holds its displacement. -/
inductive FieldKind where
  /-- A signed 32-bit displacement from the end of the field. -/
  | rel32
  /-- A signed count of words in bits 25 to 0 of the instruction. -/
  | imm26
  /-- A signed count of words in bits 23 to 5 of the instruction. -/
  | imm19
deriving DecidableEq, Repr

/-- A branch field in the code that waits for the position of its label. -/
structure Fixup where
  at_ : Nat
  label : Nat
  kind : FieldKind
deriving DecidableEq, Repr

/-- Why the fields of a buffer cannot be patched. -/
inductive FixupError where
  | unbound (label : Nat)
  | outOfRange (label : Nat)
deriving DecidableEq, Repr

def FixupError.message : FixupError → String
  | unbound label => s!"label {label} referenced but never bound"
  | outOfRange label => s!"branch to label {label} out of range"

/-- One encoded instruction: its bytes, and the field to patch, given by its
place among those bytes. -/
structure Encoding where
  bytes : List UInt8
  field : Option Fixup := none
deriving DecidableEq, Repr

end Crossing.Code

namespace Crossing

open Code

/-- Machine code under construction. -/
structure CodeBuffer where
  code : Array UInt8 := #[]
  /-- The position each label is bound to, if it is. -/
  labels : Array (Option Nat) := #[]
  /-- Fields not patched yet, in the order they were emitted. -/
  fixups : Array Fixup := #[]
deriving Repr

namespace CodeBuffer

/-- The length of the code, which is where the next byte goes. -/
def size (b : CodeBuffer) : Nat := b.code.size

-- =========================================================== emission

def emitBytes (b : CodeBuffer) (bytes : List UInt8) : CodeBuffer :=
  { b with code := b.code ++ bytes }

/-- Appends an instruction and notes its branch field, if it has one. -/
def emit (b : CodeBuffer) (e : Encoding) : CodeBuffer :=
  { b with
    code := b.code ++ e.bytes
    fixups :=
      match e.field with
      | none => b.fixups
      | some f => b.fixups.push { f with at_ := b.code.size + f.at_ } }

/-- Notes a field at the current position. A 32-bit displacement also gets
its four bytes; for the other kinds the instruction word is still to be
emitted. -/
def reference (b : CodeBuffer) (label : Nat) (kind : FieldKind) : CodeBuffer :=
  let bytes := match kind with
    | .rel32 => [0, 0, 0, 0]
    | .imm26 | .imm19 => []
  b.emit ⟨bytes, some ⟨0, label, kind⟩⟩

/-- Code of exactly `length` bytes: what there is, and `fill` behind it. -/
def resize (b : CodeBuffer) (length : Nat) (fill : UInt8) : CodeBuffer :=
  { b with code := .ofFn fun i : Fin length => b.code.getD i fill }

/-- Pads with `fill` up to a multiple of `alignment`, a power of two. Code
stays shorter than half the address space. -/
def align (b : CodeBuffer) (alignment : Nat) (fill : UInt8) : Except Violation CodeBuffer := do
  let sum ← addWord b.size alignment
  let last ← subWord sum 1
  let mask ← subWord alignment 1
  let aligned := last - (last &&& mask)
  if aligned < 2 ^ 63 then return b.resize aligned fill else throw .codeTooLong

-- ============================================================= labels

/-- Hands out a label that is not bound yet. -/
def newLabel (b : CodeBuffer) : Nat × CodeBuffer :=
  (b.labels.size, { b with labels := b.labels.push none })

/-- Binds a label to the current position. A label is bound once. -/
def bind (b : CodeBuffer) (label : Nat) : Except Violation CodeBuffer :=
  if h : label < b.labels.size then
    match b.labels[label] with
    | some _ => .error (.labelBoundTwice label)
    | none => .ok { b with labels := b.labels.set label (some b.size) }
  else .error (.indexOutOfBounds b.labels.size label)

/-- Where a label is bound; a label that was never handed out is bound
nowhere. -/
def position? (b : CodeBuffer) (label : Nat) : Option Nat :=
  (b.labels[label]?).join

-- =========================================================== patching

/-- The four bytes at `at_` as one word. -/
def wordAt (code : Array UInt8) (at_ : Nat) : Except Violation Nat :=
  let rec read : Nat → Nat → Except Violation Nat
    | 0, _ => .ok 0
    | n + 1, i =>
        match code[i]? with
        | none => .error (.indexOutOfBounds code.size i)
        | some byte => (read n (i + 1)).map (byte.toNat + 256 * ·)
  read 4 at_

/-- The displacement a field of this kind holds for a branch from `at_` to
`target`. Word counts round toward zero. -/
def displacement (kind : FieldKind) (at_ target : Nat) : Int :=
  match kind with
  | .rel32 => (target : Int) - (at_ + 4)
  | .imm26 | .imm19 => Int.tdiv ((target : Int) - at_) 4

/-- How many bits a field of this kind has for its signed displacement. -/
def fieldBits : FieldKind → Nat
  | .rel32 => 32
  | .imm26 => 26
  | .imm19 => 19

/-- Whether a signed value can be held in `bits` bits. -/
def fits (bits : Nat) (v : Int) : Bool :=
  -(2 ^ (bits - 1) : Int) ≤ v && v < 2 ^ (bits - 1)

/-- An instruction word with a displacement put into its field. -/
def withDisplacement (kind : FieldKind) (word : Nat) (v : Int) : Nat :=
  match kind with
  | .rel32 => (v % 2 ^ 32).toNat
  | .imm26 => (word &&& 0xFC000000) ||| (v % 2 ^ 26).toNat
  | .imm19 => (word &&& 0xFF00001F) ||| (v % 2 ^ 19).toNat <<< 5

/-- Patches one field. The outer failure is a field that does not lie
inside the code; the inner one is a label the field cannot reach. -/
def patch (labels : Array (Option Nat)) (code : Array UInt8) (f : Fixup) :
    Except Violation (Except FixupError (Array UInt8)) :=
  match (labels[f.label]?).join with
  | none => .ok (.error (.unbound f.label))
  | some target =>
      let v := displacement f.kind f.at_ target
      if fits (fieldBits f.kind) v then
        match f.kind with
        | .rel32 =>
            if f.at_ + 4 ≤ code.size then
              .ok (.ok (overwrite code f.at_ (littleEndian 4 (withDisplacement .rel32 0 v))))
            else .error (.rangeEndOutOfBounds (f.at_ + 4) code.size)
        | kind => do
            let word ← wordAt code f.at_
            return .ok (overwrite code f.at_ (littleEndian 4 (withDisplacement kind word v)))
      else .ok (.error (.outOfRange f.label))

/-- Patches fields one after the other, up to the first that fails; the
code keeps what was patched before it. -/
def patchAll (labels : Array (Option Nat)) (code : Array UInt8) :
    List Fixup → Except Violation (Option FixupError × Array UInt8)
  | [] => .ok (none, code)
  | f :: fs =>
      match patch labels code f with
      | .error v => .error v
      | .ok (.error e) => .ok (some e, code)
      | .ok (.ok code') => patchAll labels code' fs

/-- Patches all waiting fields. Afterwards none is waiting, also when the
answer is an error. -/
def resolve (b : CodeBuffer) : Except Violation (Option FixupError × CodeBuffer) :=
  match patchAll b.labels b.code b.fixups.toList with
  | .error v => .error v
  | .ok (e, code) => .ok (e, { b with code := code, fixups := #[] })

end CodeBuffer

end Crossing
