import Crossing.Proofs.Code.Field
import Crossing.Proofs.X86.Format
import Crossing.X86.Instr

/-
What the parts of an instruction say in 64-bit mode: an operation, its
operands with their widths, the address of a memory operand taken apart, and
immediates extended to the width they are used at. `disassemble` reads one
instruction off the front of a byte string.

The rules are the architecture's. A REX byte extends register numbers by a
fourth bit and changes what the byte registers 4 to 7 are; base code 5
without a displacement byte is no register; index code 4 is no index. Only
operations that glue code consists of have a meaning here.
-/
namespace Crossing.X86

open Code

/-- Bytes of an integer operand. -/
def Width.bytes : Width → Nat
  | byte => 1
  | word => 2
  | long => 4
  | quad => 8

/-- Bytes of a floating-point scalar. -/
def Scalar.bytes : Scalar → Nat
  | single => 4
  | double => 8

-- ============================================================ operands

/-- The segments whose beginning counts in 64-bit mode. -/
inductive Segment where
  | fs
  | gs
deriving DecidableEq, Repr

def Segment.ofByte? (b : UInt8) : Option Segment :=
  if b = 0x64 then some fs else if b = 0x65 then some gs else none

/-- What an address starts from. -/
inductive Base where
  | none
  /-- The address of the next instruction. -/
  | next
  | reg (r : Reg)
deriving DecidableEq, Repr

/-- An address, taken apart. -/
structure Address where
  segment : Option Segment
  base : Base
  /-- An index register with its factor. -/
  index : Option (Reg × Nat)
  /-- Added with its sign. -/
  disp : Int32
deriving DecidableEq, Repr

inductive Operand where
  /-- The low part of a general-purpose register. -/
  | reg (width : Width) (r : Reg)
  /-- The second byte of one of the first four registers. -/
  | secondByte (r : Nat)
  | xmm (number : Nat)
  /-- So many bytes of memory. -/
  | mem (size : Nat) (a : Address)
  /-- An address as such. -/
  | address (a : Address)
  /-- An immediate, as a word of the width the operation uses it at. -/
  | imm (value : Nat)
  /-- The distance of a branch from its end. -/
  | distance (d : Int32)
deriving DecidableEq, Repr

inductive Mnemonic where
  | push
  | pop
  | mov
  | movsx
  | movzx
  | lea
  | movScalar (scalar : Scalar)
  | movaps
  | add
  | or
  | adc
  | sbb
  | and
  | sub
  | xor
  | cmp
  | test
  | cmpxchg
  | jmp
  | jcc (cond : Cond)
  | call
  | ret
  | int3
deriving DecidableEq, Repr

/-- An operation on its operands, the destination first. -/
structure Operation where
  mnemonic : Mnemonic
  operands : List Operand
  locked : Bool := false
deriving DecidableEq, Repr

-- ============================================================= reading

/-- A signed number as a word of so many bits. -/
def wordOf (bits : Nat) (v : Int) : Nat := (v % 2 ^ bits).toNat

/-- The signed number that bytes spell, least significant first. -/
def signedBytes (bs : List UInt8) : Int := signed (8 * bs.length) (ofLittleEndian bs)

/-- The register with a number below 16. -/
def Reg.ofNumber (n : Nat) : Reg := ⟨Fin.ofNat 16 n⟩

/-- The operations of the group with an immediate, by extension. -/
def groupMnemonic (extension : Nat) : Mnemonic :=
  match extension with
  | 0 => .add
  | 1 => .or
  | 2 => .adc
  | 3 => .sbb
  | 4 => .and
  | 5 => .sub
  | 6 => .xor
  | _ => .cmp

namespace Format.Parts

variable (p : Parts)

/-- The width of an operation that is not on bytes. -/
def width : Width :=
  if p.head.wide then .quad else if 0x66 ∈ p.head.legacy then .word else .long

/-- A register number of three bits, extended by a bit of the REX byte. -/
def number (bit field : Nat) : Nat := field + if p.head.rexBit bit then 8 else 0

/-- A general-purpose register. Without a REX byte the byte registers 4 to 7
are second bytes. -/
def register (w : Width) (n : Nat) : Operand :=
  if w = .byte ∧ p.head.rex = none ∧ 4 ≤ n then .secondByte (n - 4) else .reg w (.ofNumber n)

/-- The register that the middle field of a ModRM byte names. -/
def reg (w : Width) (m : UInt8) : Operand := p.register w (p.number 2 (middle m))

/-- The address that a ModRM byte announces. -/
def address (m : UInt8) : Address where
  segment := (p.head.legacy.filterMap Segment.ofByte?).getLast?
  base :=
    if high m = 0 ∧ baseField m p.sib = 5 then if p.sib.isSome then .none else .next
    else .reg (.ofNumber (p.number 0 (baseField m p.sib)))
  index := p.sib.bind fun s =>
    if p.number 1 (middle s) = 4 then none
    else some (.ofNumber (p.number 1 (middle s)), 2 ^ high s)
  disp := .ofInt (signedBytes p.disp)

/-- The other operand of a ModRM byte: what a register or memory holds. -/
def rm (w : Width) (m : UInt8) : Operand :=
  if high m = 3 then p.register w (p.number 0 (low m)) else .mem w.bytes (p.address m)

/-- The same among the SSE registers. -/
def xmmRm (size : Nat) (m : UInt8) : Operand :=
  if high m = 3 then .xmm (p.number 0 (low m)) else .mem size (p.address m)

/-- The immediate at a width, with its sign. -/
def immediate (w : Width) : Operand := .imm (wordOf (8 * w.bytes) (signedBytes p.imm))

/-- The prefix that chooses among SSE operations; the last one counts. -/
def repetition? : Option UInt8 :=
  (p.head.legacy.filter fun b => b = 0xF2 ∨ b = 0xF3).getLast?

/-- Operations of the primary map without a ModRM byte. -/
def plain? : Option Operation :=
  let b := p.head.opcode.byte
  let n := p.number 0 (low b)
  -- pushes and pops have no 32-bit form
  let whole : Width := if 0x66 ∈ p.head.legacy then .word else .quad
  if b.toNat / 8 = 0x0A then some ⟨.push, [p.register whole n], false⟩
  else if b.toNat / 8 = 0x0B then some ⟨.pop, [p.register whole n], false⟩
  else if b.toNat / 8 = 0x17 then
    some ⟨.mov, [p.register p.width n, p.immediate p.width], false⟩
  else if b = 0xC3 then some ⟨.ret, [], false⟩
  else if b = 0xCC then some ⟨.int3, [], false⟩
  else if b = 0xE9 then some ⟨.jmp, [.distance (.ofInt (signedBytes p.imm))], false⟩
  else none

/-- Operations of the primary map with a ModRM byte. -/
def withOperand? (m : UInt8) : Option Operation :=
  match p.head.opcode.byte with
  | 0x31 => some ⟨.xor, [p.rm p.width m, p.reg p.width m], false⟩
  | 0x80 => some ⟨groupMnemonic (middle m), [p.rm .byte m, p.immediate .byte], false⟩
  | 0x81 | 0x83 => some ⟨groupMnemonic (middle m), [p.rm p.width m, p.immediate p.width], false⟩
  | 0x85 => some ⟨.test, [p.rm p.width m, p.reg p.width m], false⟩
  | 0x88 => some ⟨.mov, [p.rm .byte m, p.reg .byte m], false⟩
  | 0x89 => some ⟨.mov, [p.rm p.width m, p.reg p.width m], false⟩
  | 0x8B => some ⟨.mov, [p.reg p.width m, p.rm p.width m], false⟩
  | 0x8D =>
      if high m = 3 then none
      else some ⟨.lea, [p.reg p.width m, .address (p.address m)], false⟩
  | 0xC7 =>
      if middle m = 0 then some ⟨.mov, [p.rm p.width m, p.immediate p.width], false⟩ else none
  | 0xF7 =>
      if middle m = 0 then some ⟨.test, [p.rm p.width m, p.immediate p.width], false⟩ else none
  | 0xFF =>
      if middle m = 2 then some ⟨.call, [p.rm .quad m], false⟩
      else if middle m = 4 then some ⟨.jmp, [p.rm .quad m], false⟩
      else none
  | _ => none

/-- Operations behind the escape byte with a ModRM byte. -/
def escaped? (repetition : Option UInt8) (m : UInt8) : Option Operation :=
  let xmm : Operand := .xmm (p.number 2 (middle m))
  match p.head.opcode.byte, repetition with
  | 0x10, some 0xF3 => some ⟨.movScalar .single, [xmm, p.xmmRm 4 m], false⟩
  | 0x10, some 0xF2 => some ⟨.movScalar .double, [xmm, p.xmmRm 8 m], false⟩
  | 0x11, some 0xF3 => some ⟨.movScalar .single, [p.xmmRm 4 m, xmm], false⟩
  | 0x11, some 0xF2 => some ⟨.movScalar .double, [p.xmmRm 8 m, xmm], false⟩
  | 0x28, none =>
      if 0x66 ∈ p.head.legacy then none else some ⟨.movaps, [xmm, p.xmmRm 16 m], false⟩
  | 0xB1, none => some ⟨.cmpxchg, [p.rm p.width m, p.reg p.width m], false⟩
  | 0xB6, none => some ⟨.movzx, [p.reg p.width m, p.rm .byte m], false⟩
  | 0xB7, none => some ⟨.movzx, [p.reg p.width m, p.rm .word m], false⟩
  | 0xBE, none => some ⟨.movsx, [p.reg p.width m, p.rm .byte m], false⟩
  | 0xBF, none => some ⟨.movsx, [p.reg p.width m, p.rm .word m], false⟩
  | _, _ => none

/-- Branches behind the escape byte, by their condition. -/
def branch? : Option Operation :=
  let b := p.head.opcode.byte
  if b.toNat / 16 = 8 then
    some ⟨.jcc ⟨Fin.ofNat 16 b.toNat⟩, [.distance (.ofInt (signedBytes p.imm))], false⟩
  else none

/-- What an instruction does. Shortened addresses have no meaning here. -/
def operation? : Option Operation :=
  if 0x67 ∈ p.head.legacy then none
  else
    let found := match p.head.opcode.escaped, p.modrm with
      | false, none => p.plain?
      | false, some m => p.withOperand? m
      | true, none => p.branch?
      | true, some m => p.escaped? p.repetition? m
    found.map fun op => { op with locked := 0xF0 ∈ p.head.legacy }

end Format.Parts

/-- The instruction at the front of a byte string and what follows it. -/
def disassemble (code : List UInt8) : Option (Operation × List UInt8) := do
  let (p, rest) ← Format.parts? true code
  return (← p.operation?, rest)

/-- The constant that an operation loads into a register. Writing the lower
half of a register clears its upper half. -/
def Operation.constant? : Operation → Option (Reg × UInt64)
  | ⟨.mov, [.reg .long r, .imm v], false⟩ => some (r, (UInt32.ofNat v).toUInt64)
  | ⟨.mov, [.reg .quad r, .imm v], false⟩ => some (r, .ofNat v)
  | _ => none

end Crossing.X86
