import Crossing.Code.Buffer

/-
The format of x86 instructions, as the architecture lays it down: which
parts an instruction is made of and how many bytes each of them has, in 32-bit
and in 64-bit mode. An instruction is

    [legacy prefixes] [REX] [0F] opcode [ModRM] [SIB] [displacement] [immediate]

and `Parts` keeps the bytes of each part. `WellFormed` is the grammar; it is
about the parts alone and says nothing of how they are found. `parts?` reads
the parts off the front of a byte string, and the two lemmas at the end tie
it to the grammar: it finds exactly the well-formed parts, whatever follows
them.

Of the opcode map only the entries that code of this project contains or
measures are listed. That an instruction as a whole has at most 15 bytes is
not part of the grammar.
-/
namespace Crossing.X86.Format

-- ============================================================== fields

/-- The two upper bits of a byte: mode of a ModRM byte, scale of a SIB
byte. -/
def high (b : UInt8) : Nat := b.toNat / 64

/-- The three bits in the middle: `reg` or an opcode extension, index. -/
def middle (b : UInt8) : Nat := b.toNat / 8 % 8

/-- The three lower bits: `r/m`, base. -/
def low (b : UInt8) : Nat := b.toNat % 8

theorem toNat_and_seven (b : UInt8) : (b &&& 7).toNat = b.toNat % 8 := by
  rw [UInt8.toNat_and]
  exact Nat.and_two_pow_sub_one_eq_mod b.toNat 3

/-- Lock and repetition, segment overrides, operand size, address size. -/
def legacyPrefixes : List UInt8 :=
  [0xF0, 0xF2, 0xF3, 0x2E, 0x36, 0x3E, 0x26, 0x64, 0x65, 0x66, 0x67]

/-- In 64-bit mode the bytes 40 to 4F extend the instruction behind them. -/
def isRexPrefix (b : UInt8) : Bool := b.toNat / 16 = 4

-- ============================================================= opcodes

/-- An opcode byte, of the primary map or behind the escape byte. -/
structure OpByte where
  escaped : Bool
  byte : UInt8
deriving DecidableEq, Repr

def OpByte.bytes (o : OpByte) : List UInt8 :=
  if o.escaped then [0x0F, o.byte] else [o.byte]

/-- How an immediate's width is found. -/
inductive ImmField where
  | none
  | byte
  /-- As wide as the operand, but not wider than four bytes. -/
  | operand
  /-- As wide as the operand. -/
  | whole
  /-- The distance of a near branch. -/
  | near
  /-- A group of operations, chosen by the middle field of the ModRM byte,
  of which only the test has an immediate. -/
  | ofTest (field : ImmField)
deriving DecidableEq, Repr

/-- What follows an opcode. -/
structure Form where
  modrm : Bool
  imm : ImmField
deriving DecidableEq, Repr

/-- The primary map. Its first four rows hold eight arithmetic operations of
eight columns each, four of them with a ModRM byte and two on the
accumulator with an immediate. -/
def primaryForm? (b : Nat) : Option Form :=
  if b < 0x40 then
    if b % 8 < 4 then some ⟨true, .none⟩
    else if b % 8 = 4 then some ⟨false, .byte⟩
    else if b % 8 = 5 then some ⟨false, .operand⟩
    else none
  else if 0x50 ≤ b ∧ b < 0x60 then some ⟨false, .none⟩
  else if b = 0x80 ∨ b = 0x83 ∨ b = 0xC6 then some ⟨true, .byte⟩
  else if b = 0x81 ∨ b = 0xC7 then some ⟨true, .operand⟩
  else if 0x84 ≤ b ∧ b < 0x8C ∨ b = 0x8D ∨ b = 0xFF then some ⟨true, .none⟩
  else if 0xB8 ≤ b ∧ b < 0xC0 then some ⟨false, .whole⟩
  else if b = 0xC3 ∨ b = 0xCC then some ⟨false, .none⟩
  else if b = 0xE9 then some ⟨false, .near⟩
  else if b = 0xF6 then some ⟨true, .ofTest .byte⟩
  else if b = 0xF7 then some ⟨true, .ofTest .operand⟩
  else none

/-- The map behind the escape byte. -/
def secondaryForm? (b : Nat) : Option Form :=
  if b = 0x10 ∨ b = 0x11 ∨ b = 0x28 ∨ b = 0xB1 ∨ b = 0xB6 ∨ b = 0xB7 ∨ b = 0xBE ∨ b = 0xBF then
    some ⟨true, .none⟩
  else if 0x80 ≤ b ∧ b < 0x90 then some ⟨false, .near⟩
  else none

def OpByte.form? (o : OpByte) : Option Form :=
  if o.escaped then secondaryForm? o.byte.toNat else primaryForm? o.byte.toNat

-- =============================================================== parts

/-- An instruction up to its opcode. -/
structure Head where
  legacy : List UInt8
  rex : Option UInt8
  opcode : OpByte
deriving DecidableEq, Repr

namespace Head

def bytes (h : Head) : List UInt8 := h.legacy ++ (h.rex.toList ++ h.opcode.bytes)

/-- A bit of the REX byte; without one they are clear. -/
def rexBit (h : Head) (i : Nat) : Bool := h.rex.any fun b => b.toNat.testBit i

/-- Operands of 64 bits, whatever the prefixes say. -/
def wide (h : Head) : Bool := h.rexBit 3

/-- Bytes of an operand. -/
def operandBytes (h : Head) : Nat :=
  if h.wide then 8 else if 0x66 ∈ h.legacy then 2 else 4

/-- Addresses of 16 bits, which only 32-bit mode can switch to. -/
def shortAddress (is64 : Bool) (h : Head) : Bool := !is64 && 0x67 ∈ h.legacy

end Head

/-- Bytes of an immediate. The second operation of a group with a test does
not exist. -/
def ImmField.bytes? (is64 : Bool) (h : Head) (modrm : Option UInt8) : ImmField → Option Nat
  | none => some 0
  | byte => some 1
  | operand => some (min 4 h.operandBytes)
  | whole => some h.operandBytes
  | near => some (if is64 then 4 else h.operandBytes)
  | ofTest field =>
      match modrm.map middle with
      | some 0 => field.bytes? is64 h modrm
      | some 1 => Option.none
      | _ => some 0

/-- Whether a SIB byte follows a ModRM byte. -/
def hasSib (short : Bool) (modrm : Option UInt8) : Bool :=
  !short && modrm.any fun m => high m ≠ 3 && low m = 4

/-- The base of an address: the SIB byte names it if there is one. -/
def baseField (modrm : UInt8) (sib : Option UInt8) : Nat := low (sib.getD modrm)

/-- Bytes of a displacement. Mode 0 has none, except where the field of the
base register holds the one code that stands for no base. -/
def dispBytes (short : Bool) (modrm sib : Option UInt8) : Nat :=
  match modrm with
  | none => 0
  | some m =>
      match high m with
      | 0 =>
          if short then if low m = 6 then 2 else 0
          else if baseField m sib = 5 then 4 else 0
      | 1 => 1
      | 2 => if short then 2 else 4
      | _ => 0

/-- The bytes of an instruction, part by part. -/
structure Parts where
  head : Head
  modrm : Option UInt8
  sib : Option UInt8
  disp : List UInt8
  imm : List UInt8
deriving DecidableEq, Repr

namespace Parts

def bytes (p : Parts) : List UInt8 :=
  p.head.bytes ++ (p.modrm.toList ++ (p.sib.toList ++ (p.disp ++ p.imm)))

/-- How long the instruction is. -/
def length (p : Parts) : Nat := p.bytes.length

end Parts

-- ============================================================= grammar

/-- Prefixes and an opcode that is none. -/
structure Head.Valid (is64 : Bool) (h : Head) : Prop where
  legacy : ∀ b ∈ h.legacy, b ∈ legacyPrefixes
  rex : ∀ b, h.rex = some b → is64 = true ∧ isRexPrefix b = true
  opcode : h.rex = none → ∀ b, h.opcode.bytes.head? = some b →
    b ∉ legacyPrefixes ∧ (is64 && isRexPrefix b) = false
  escape : h.opcode.escaped = false → h.opcode.byte ≠ 0x0F

/-- No prefix has an entry in the primary map, and the escape byte has
none. -/
theorem not_prefix_of_primaryForm? {b : UInt8} {form : Form}
    (h : primaryForm? b.toNat = some form) :
    b ∉ legacyPrefixes ∧ isRexPrefix b = false ∧ b ≠ 0x0F := by
  have hlegacy : ∀ b ∈ legacyPrefixes, (primaryForm? b.toNat).isNone = true :=
    List.all_eq_true.mp (by decide)
  have hrex : ∀ n < 0x50, 0x40 ≤ n → primaryForm? n = none := by decide
  refine ⟨fun hb => ?_, ?_, ?_⟩
  · have hnone := hlegacy b hb
    rw [h] at hnone
    cases hnone
  · rw [isRexPrefix, decide_eq_false_iff_not]
    intro hb
    rw [hrex b.toNat (by omega) (by omega)] at h
    cases h
  · rintro rfl
    cases h

/-- With an entry for its opcode, only the prefixes of a head are left to
look at. -/
theorem Head.Valid.of_entry {is64 : Bool} {h : Head} {form : Form}
    (hentry : h.opcode.form? = some form) (hlegacy : ∀ b ∈ h.legacy, b ∈ legacyPrefixes)
    (hrex : ∀ b, h.rex = some b → is64 = true ∧ isRexPrefix b = true) : h.Valid is64 := by
  obtain ⟨legacy, rex, escaped, opcode⟩ := h
  cases escaped with
  | true =>
      have hescape : 0x0F ∉ legacyPrefixes ∧ isRexPrefix 0x0F = false := by decide
      refine ⟨hlegacy, hrex, fun _ b hb => ?_, fun h => (nomatch h)⟩
      cases hb
      exact ⟨hescape.1, by rw [hescape.2, Bool.and_false]⟩
  | false =>
      obtain ⟨hl, hr, he⟩ := not_prefix_of_primaryForm? hentry
      refine ⟨hlegacy, hrex, fun _ b hb => ?_, fun _ => he⟩
      cases hb
      exact ⟨hl, by rw [hr, Bool.and_false]⟩

/-- The parts of one instruction: each of them is there, with as many bytes
as it has, exactly when those before it say so. -/
structure WellFormed (is64 : Bool) (form : Form) (p : Parts) : Prop where
  head : p.head.Valid is64
  entry : p.head.opcode.form? = some form
  modrm : p.modrm.isSome = form.modrm
  sib : p.sib.isSome = hasSib (p.head.shortAddress is64) p.modrm
  disp : p.disp.length = dispBytes (p.head.shortAddress is64) p.modrm p.sib
  imm : form.imm.bytes? is64 p.head p.modrm = some p.imm.length

-- ============================================================= reading

/-- A byte that is there if `present` says so. -/
def byte? (present : Bool) (code : List UInt8) : Option (Option UInt8 × List UInt8) :=
  if present then
    match code with
    | [] => none
    | b :: rest => some (some b, rest)
  else some (none, code)

/-- The next `n` bytes. -/
def take? (n : Nat) (code : List UInt8) : Option (List UInt8 × List UInt8) :=
  if n ≤ code.length then some (code.take n, code.drop n) else none

/-- Whether a REX byte stands at the front. -/
def startsWithRex (is64 : Bool) (code : List UInt8) : Bool :=
  is64 && code.head?.any isRexPrefix

def opcode? : List UInt8 → Option (OpByte × List UInt8)
  | 0x0F :: b :: rest => some (⟨true, b⟩, rest)
  | [0x0F] => none
  | b :: rest => some (⟨false, b⟩, rest)
  | [] => none

/-- Everything up to the opcode. -/
def head? (is64 : Bool) (code : List UInt8) : Option (Head × List UInt8) := do
  let legacy := code.takeWhile (· ∈ legacyPrefixes)
  let code := code.dropWhile (· ∈ legacyPrefixes)
  let (rex, code) ← byte? (startsWithRex is64 code) code
  let (opcode, code) ← opcode? code
  return (⟨legacy, rex, opcode⟩, code)

/-- The instruction at the front of a byte string, and what follows it. -/
def parts? (is64 : Bool) (code : List UInt8) : Option (Parts × List UInt8) := do
  let (head, code) ← head? is64 code
  let form ← head.opcode.form?
  let (modrm, code) ← byte? form.modrm code
  let (sib, code) ← byte? (hasSib (head.shortAddress is64) modrm) code
  let (disp, code) ← take? (dispBytes (head.shortAddress is64) modrm sib) code
  let (imm, code) ← take? (← form.imm.bytes? is64 head modrm) code
  return (⟨head, modrm, sib, disp, imm⟩, code)

/-- How long the instruction at the front is. -/
def extent? (is64 : Bool) (code : List UInt8) : Option Nat := (parts? is64 code).map (·.1.length)

-- ================================================ reading what is there

theorem byte?_toList (b : Option UInt8) (rest : List UInt8) :
    byte? b.isSome (b.toList ++ rest) = some (b, rest) := by
  cases b with
  | none => rfl
  | some b => rfl

theorem take?_append (bs rest : List UInt8) : take? bs.length (bs ++ rest) = some (bs, rest) := by
  rw [take?, if_pos (by rw [List.length_append]; omega), List.take_left, List.drop_left]

theorem opcode?_bytes {o : OpByte} (h : o.escaped = false → o.byte ≠ 0x0F) (rest : List UInt8) :
    opcode? (o.bytes ++ rest) = some (o, rest) := by
  obtain ⟨escaped, b⟩ := o
  cases escaped with
  | true => rfl
  | false =>
      have hb : b ≠ 0x0F := h rfl
      simp [OpByte.bytes, opcode?, hb]

/-- A prefix that may extend an instruction is no legacy prefix. -/
theorem not_legacy_of_isRexPrefix {b : UInt8} (h : isRexPrefix b = true) : b ∉ legacyPrefixes := by
  intro hb
  have hall : ∀ b ∈ legacyPrefixes, (!isRexPrefix b) = true := List.all_eq_true.mp (by decide)
  have hnot := hall b hb
  rw [h] at hnot
  cases hnot

theorem opcode_bytes_cons (o : OpByte) : ∃ b bs, o.bytes = b :: bs := by
  obtain ⟨escaped, b⟩ := o
  cases escaped with
  | true => exact ⟨0x0F, [b], rfl⟩
  | false => exact ⟨b, [], rfl⟩

/-- What stands behind the legacy prefixes of a valid head is none of
them, and a REX byte exactly if the head has one. -/
theorem Head.Valid.next {is64 : Bool} {h : Head} (hv : h.Valid is64) (rest : List UInt8) :
    ∃ b bs, h.rex.toList ++ (h.opcode.bytes ++ rest) = b :: bs ∧ b ∉ legacyPrefixes
      ∧ startsWithRex is64 (b :: bs) = h.rex.isSome := by
  cases hr : h.rex with
  | some r =>
      obtain ⟨hmode, hrex⟩ := hv.rex r hr
      exact ⟨r, _, rfl, not_legacy_of_isRexPrefix hrex, by simp [startsWithRex, hmode, hrex]⟩
  | none =>
      obtain ⟨b, bs, hbytes⟩ := opcode_bytes_cons h.opcode
      obtain ⟨hlegacy, hrex⟩ := hv.opcode hr b (by rw [hbytes]; rfl)
      refine ⟨b, bs ++ rest, by rw [hbytes]; rfl, hlegacy, ?_⟩
      simpa [startsWithRex] using hrex

/-- A valid head is read back, whatever follows it. -/
theorem head?_bytes {is64 : Bool} {h : Head} (hv : h.Valid is64) (rest : List UInt8) :
    head? is64 (h.bytes ++ rest) = some (h, rest) := by
  obtain ⟨b, bs, hnext, hstop, hrex⟩ := hv.next rest
  have hlegacy : ∀ b ∈ h.legacy, decide (b ∈ legacyPrefixes) = true := fun b hb =>
    decide_eq_true (hv.legacy b hb)
  have htake : (h.legacy ++ b :: bs).takeWhile (· ∈ legacyPrefixes) = h.legacy := by
    rw [List.takeWhile_append_of_pos hlegacy, List.takeWhile_cons_of_neg (by simpa using hstop),
      List.append_nil]
  have hdrop : (h.legacy ++ b :: bs).dropWhile (· ∈ legacyPrefixes) = b :: bs := by
    rw [List.dropWhile_append_of_pos hlegacy, List.dropWhile_cons_of_neg (by simpa using hstop)]
  simp only [head?, Head.bytes, List.append_assoc, hnext, htake, hdrop, hrex]
  simp only [← hnext, byte?_toList, opcode?_bytes hv.escape, Option.bind_eq_bind, Option.bind_some]
  rfl

/-- The parts of an instruction are read back, whatever follows them. -/
theorem parts?_bytes {is64 : Bool} {form : Form} {p : Parts} (hp : WellFormed is64 form p)
    (rest : List UInt8) : parts? is64 (p.bytes ++ rest) = some (p, rest) := by
  simp only [parts?, Parts.bytes, List.append_assoc, head?_bytes hp.head, hp.entry, ← hp.modrm,
    byte?_toList, ← hp.sib, ← hp.disp, take?_append, hp.imm, Option.bind_eq_bind, Option.bind_some]
  rfl

-- ============================================== only what is there is read

theorem byte?_eq_some {present : Bool} {code rest : List UInt8} {b : Option UInt8}
    (h : byte? present code = some (b, rest)) : b.isSome = present ∧ code = b.toList ++ rest := by
  unfold byte? at h
  split at h
  · next hp =>
      split at h
      · cases h
      · cases h
        exact ⟨hp.symm, rfl⟩
  · next hp =>
      cases h
      exact ⟨(Bool.eq_false_iff.mpr hp).symm, rfl⟩

theorem take?_eq_some {n : Nat} {code bs rest : List UInt8} (h : take? n code = some (bs, rest)) :
    bs.length = n ∧ code = bs ++ rest := by
  unfold take? at h
  split at h
  · next hn =>
      cases h
      exact ⟨by rw [List.length_take]; omega, (List.take_append_drop n code).symm⟩
  · cases h

theorem opcode?_eq_some {code rest : List UInt8} {o : OpByte} (h : opcode? code = some (o, rest)) :
    (o.escaped = false → o.byte ≠ 0x0F) ∧ code = o.bytes ++ rest := by
  unfold opcode? at h
  split at h
  · cases h
    exact ⟨fun h => (nomatch h), rfl⟩
  · cases h
  · next b rest hlong hshort =>
      cases h
      refine ⟨fun _ hb => ?_, rfl⟩
      cases rest with
      | nil => exact hshort hb rfl
      | cons c rest => exact hlong c rest hb rfl
  · cases h

theorem head?_eq_some {is64 : Bool} {code rest : List UInt8} {h : Head}
    (hread : head? is64 code = some (h, rest)) : h.Valid is64 ∧ code = h.bytes ++ rest := by
  unfold head? at hread
  obtain ⟨⟨rex, code₁⟩, hrex, hread⟩ := Option.bind_eq_some_iff.mp hread
  obtain ⟨⟨opcode, code₂⟩, hopcode, hread⟩ := Option.bind_eq_some_iff.mp hread
  cases hread
  obtain ⟨hsome, hcode₁⟩ := byte?_eq_some hrex
  obtain ⟨hescape, hcode₂⟩ := opcode?_eq_some hopcode
  rw [hcode₂] at hcode₁
  refine ⟨⟨?_, ?_, ?_, hescape⟩, ?_⟩
  · intro b hb
    simpa using List.all_eq_true.mp List.all_takeWhile b hb
  · intro b hb
    cases hb
    rw [hcode₁] at hsome
    simpa [startsWithRex] using hsome.symm
  · intro hnone b hb
    cases hnone
    obtain ⟨first, more, hfirst⟩ := opcode_bytes_cons opcode
    rw [hfirst] at hb hcode₁
    cases hb
    have hstop := List.head?_dropWhile_not (· ∈ legacyPrefixes) code
    rw [hcode₁] at hstop hsome
    exact ⟨by simpa using hstop, by simpa [startsWithRex] using hsome.symm⟩
  · calc code
        = code.takeWhile (· ∈ legacyPrefixes) ++ code.dropWhile (· ∈ legacyPrefixes) :=
          List.takeWhile_append_dropWhile.symm
      _ = _ := by rw [hcode₁, Head.bytes, List.append_assoc, List.append_assoc]

/-- Reading finds the parts of an instruction at the front, and nothing
else. -/
theorem parts?_eq_some_iff {is64 : Bool} {code rest : List UInt8} {p : Parts} :
    parts? is64 code = some (p, rest)
      ↔ (∃ form, WellFormed is64 form p) ∧ code = p.bytes ++ rest := by
  constructor
  · intro h
    unfold parts? at h
    obtain ⟨⟨head, code₁⟩, hhead, h⟩ := Option.bind_eq_some_iff.mp h
    obtain ⟨form, hform, h⟩ := Option.bind_eq_some_iff.mp h
    obtain ⟨⟨modrm, code₂⟩, hmodrm, h⟩ := Option.bind_eq_some_iff.mp h
    obtain ⟨⟨sib, code₃⟩, hsib, h⟩ := Option.bind_eq_some_iff.mp h
    obtain ⟨⟨disp, code₄⟩, hdisp, h⟩ := Option.bind_eq_some_iff.mp h
    obtain ⟨n, hn, h⟩ := Option.bind_eq_some_iff.mp h
    obtain ⟨⟨imm, code₅⟩, himm, h⟩ := Option.bind_eq_some_iff.mp h
    cases h
    obtain ⟨hvalid, rfl⟩ := head?_eq_some hhead
    obtain ⟨hmodrm', rfl⟩ := byte?_eq_some hmodrm
    obtain ⟨hsib', rfl⟩ := byte?_eq_some hsib
    obtain ⟨hdisp', rfl⟩ := take?_eq_some hdisp
    obtain ⟨himm', rfl⟩ := take?_eq_some himm
    refine ⟨⟨form, hvalid, hform, hmodrm', hsib', hdisp', ?_⟩, ?_⟩
    · rw [hn, himm']
    · simp only [Parts.bytes, List.append_assoc]
  · rintro ⟨⟨form, hp⟩, rfl⟩
    exact parts?_bytes hp rest

end Crossing.X86.Format
