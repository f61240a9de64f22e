/-
How long an x86 instruction is. Only the forms that compiled code uses as
implicit null checks are known: moves, compares and tests with a memory
operand. Everything else has length zero, so that a fault there is left
alone; resuming in the middle of an instruction would be worse than not
resuming.
-/
namespace Crossing.X86

/-- The bytes that may stand, any number of them, before an opcode. -/
def isLegacyByte (b : UInt8) : Bool :=
  b = 0x66 || b = 0xF0 || b = 0xF2 || b = 0xF3 || b = 0x2E || b = 0x36 || b = 0x3E || b = 0x26
    || b = 0x64 || b = 0x65 || b = 0x67

/-- The byte that overrides the operand size. -/
def operandSizeByte : UInt8 := 0x66

def isRex (b : UInt8) : Bool := 0x40 ≤ b && b ≤ 0x4F

/-- What follows a ModRM byte as an immediate. -/
inductive Immediate where
  | none
  | byte
  /-- Two bytes under an operand-size override, else four. -/
  | word
  /-- The middle field of the ModRM byte chooses between operations with
  and without an immediate. -/
  | chosen (whenTest : Immediate)
deriving DecidableEq, Repr

/-- The immediate of a known one-byte opcode. -/
def oneByteForm? (opcode : UInt8) : Option Immediate :=
  if opcode = 0x88 || opcode = 0x89 || opcode = 0x8B || opcode = 0x85
      || (0x38 ≤ opcode && opcode ≤ 0x3D) then some .none
  else if opcode = 0x80 || opcode = 0x83 || opcode = 0xC6 then some .byte
  else if opcode = 0x81 || opcode = 0xC7 then some .word
  else if opcode = 0xF6 then some (.chosen .byte)
  else if opcode = 0xF7 then some (.chosen .word)
  else none

/-- The known opcodes of two bytes take no immediate. -/
def isTwoByteForm (opcode : UInt8) : Bool :=
  opcode = 0x10 || opcode = 0x11 || opcode = 0xB6 || opcode = 0xB7 || opcode = 0xBE
    || opcode = 0xBF

/-- Bytes of an immediate, given the ModRM byte and whether the operand
size is overridden. The first operation of a chosen form is the test, the
second does not exist. -/
def Immediate.bytes (wide : Bool) (modrm : UInt8) : Immediate → Option Nat
  | none => some 0
  | byte => some 1
  | word => some (if wide then 2 else 4)
  | chosen whenTest =>
      match (modrm >>> 3) &&& 7 with
      | 0 => whenTest.bytes wide modrm
      | 1 => Option.none
      | _ => some 0

/-- Bytes of the address part that a ModRM byte announces: scaled index
and displacement. -/
def addressBytes (modrm : UInt8) : Nat × Nat :=
  let mode := modrm >>> 6
  (if mode ≠ 3 && modrm &&& 7 = 4 then 1 else 0,
    if mode = 1 then 1 else if mode = 2 then 4 else 0)

/-- Length of what starts at a ModRM byte. -/
def operandLength? (wide : Bool) (form : Immediate) : List UInt8 → Option Nat
  | [] => none
  | modrm :: rest => do
      let imm ← form.bytes wide modrm
      let (index, disp) := addressBytes modrm
      let size := index + disp + imm
      if size ≤ rest.length then some (1 + size) else none

/-- Length of what starts at an opcode. -/
def opcodeLength? (wide : Bool) : List UInt8 → Option Nat
  | [] => none
  | 0x0F :: opcode :: rest =>
      if isTwoByteForm opcode then (operandLength? wide .none rest).map (2 + ·) else none
  | opcode :: rest => do
      let form ← oneByteForm? opcode
      (operandLength? wide form rest).map (1 + ·)

/-- Skips the one REX byte that 64-bit code may have. -/
def rexLength? (is64 wide : Bool) : List UInt8 → Option Nat
  | [] => none
  | b :: rest =>
      if is64 && isRex b then (opcodeLength? wide rest).map (1 + ·)
      else opcodeLength? wide (b :: rest)

/-- Skips legacy bytes, remembering an operand-size override. -/
def length? (is64 : Bool) (wide : Bool) : List UInt8 → Option Nat
  | [] => none
  | b :: rest =>
      if isLegacyByte b then (length? is64 (wide || b = operandSizeByte) rest).map (1 + ·)
      else rexLength? is64 wide (b :: rest)

/-- Length of the instruction at the start of `code`; zero when it is not
one of the known forms or `code` ends before it does. -/
def instructionLength (code : List UInt8) (is64 : Bool) : Nat := (length? is64 false code).getD 0

end Crossing.X86
