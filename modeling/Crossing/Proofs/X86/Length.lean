import Crossing.Proofs.X86.Format
import Crossing.X86.Length

/-
The length of an instruction, as it is computed for recovery, against the
length that the architecture gives it.

Both read an instruction in the same order, so the computation is first
brought into the form of the grammar (`length?_eq`): the same head, then a
size that the ModRM byte announces. What is left to compare is how many bytes
follow the ModRM byte (`sizes_agree_iff`). They differ in exactly the forms
that `Misread` lists.
-/
namespace Crossing.X86

open Format

-- ============================================================ the head

theorem isLegacyByte_eq (b : UInt8) : isLegacyByte b = decide (b ∈ legacyPrefixes) := by
  simp only [isLegacyByte, legacyPrefixes, List.mem_cons, List.not_mem_nil, or_false]
  grind

theorem isRex_eq (b : UInt8) : isRex b = isRexPrefix b := by
  have h40 : 0x40 ≤ b ↔ 64 ≤ b.toNat := UInt8.le_iff_toNat_le
  have h4F : b ≤ 0x4F ↔ b.toNat ≤ 79 := UInt8.le_iff_toNat_le
  simp only [isRex, isRexPrefix, h40, h4F, ← Bool.decide_and]
  congr 1
  apply propext
  omega

/-- The immediate of a known opcode. -/
def known? (o : OpByte) : Option Immediate :=
  if o.escaped then if isTwoByteForm o.byte then some .none else none else oneByteForm? o.byte

theorem opcodeLength?_eq (wide : Bool) (code : List UInt8) :
    opcodeLength? wide code
      = (opcode? code).bind fun r => (known? r.1).bind fun f =>
          (operandLength? wide f r.2).map (r.1.bytes.length + ·) := by
  cases code with
  | nil => rfl
  | cons b rest =>
      by_cases hb : b = 0x0F
      · -- an escape byte at the very end is no opcode, and none that is known
        subst hb
        cases rest with
        | nil => rfl
        | cons c rest =>
            simp only [opcodeLength?, opcode?, known?, Option.bind_some, if_true]
            split <;> rfl
      · simp [opcodeLength?, opcode?, known?, hb, OpByte.bytes]

theorem rexLength?_eq (is64 wide : Bool) (code : List UInt8) :
    rexLength? is64 wide code
      = (byte? (startsWithRex is64 code) code).bind fun r =>
          (opcodeLength? wide r.2).map (r.1.toList.length + ·) := by
  cases code with
  | nil => cases is64 <;> rfl
  | cons b rest =>
      have hrex : startsWithRex is64 (b :: rest) = (is64 && isRex b) := by
        simp [startsWithRex, isRex_eq]
      rw [rexLength?, hrex]
      cases is64 && isRex b with
      | true => rfl
      | false => simp [byte?]

/-- The legacy prefixes are passed one by one. -/
theorem length?_eq_rexLength? (is64 : Bool) (code : List UInt8) :
    ∀ wide, length? is64 wide code
      = (rexLength? is64 (wide || decide (0x66 ∈ code.takeWhile (· ∈ legacyPrefixes)))
          (code.dropWhile (· ∈ legacyPrefixes))).map
        ((code.takeWhile (· ∈ legacyPrefixes)).length + ·) := by
  induction code with
  | nil => intro wide; rfl
  | cons b rest ih =>
      intro wide
      by_cases hb : b ∈ legacyPrefixes
      · have hflag (taken : List UInt8) :
            (wide || decide (b = operandSizeByte) || decide (0x66 ∈ taken))
              = (wide || decide (0x66 ∈ b :: taken)) := by
          have hswap : 0x66 = b ↔ b = operandSizeByte := eq_comm
          simp only [List.mem_cons, hswap, Bool.decide_or, Bool.or_assoc]
        rw [length?, isLegacyByte_eq, if_pos (by simpa using hb), ih, hflag,
          List.takeWhile_cons_of_pos (by simpa using hb),
          List.dropWhile_cons_of_pos (by simpa using hb), Option.map_map, List.length_cons]
        congr 1
        funext n
        show 1 + (_ + n) = _ + 1 + n
        omega
      · rw [length?, isLegacyByte_eq, if_neg (by simpa using hb),
          List.takeWhile_cons_of_neg (by simpa using hb),
          List.dropWhile_cons_of_neg (by simpa using hb)]
        simp

/-- What is computed, in the form of the grammar: the same head, and behind
it what a known opcode announces. -/
theorem length?_eq (is64 : Bool) (code : List UInt8) :
    length? is64 false code
      = (head? is64 code).bind fun r => (known? r.1.opcode).bind fun f =>
          (operandLength? (decide (0x66 ∈ r.1.legacy)) f r.2).map (r.1.bytes.length + ·) := by
  rw [length?_eq_rexLength?, rexLength?_eq, head?]
  cases hrex : byte? (startsWithRex is64 (code.dropWhile (· ∈ legacyPrefixes)))
      (code.dropWhile (· ∈ legacyPrefixes)) with
  | none => rfl
  | some r =>
      obtain ⟨rex, code₁⟩ := r
      simp only [opcodeLength?_eq, Option.bind_eq_bind, Option.bind_some]
      cases hopcode : opcode? code₁ with
      | none => rfl
      | some r =>
          obtain ⟨opcode, code₂⟩ := r
          simp only [Option.bind_some, Option.pure_def, Bool.false_or, Option.map_bind,
            Function.comp_def, Option.map_map, Head.bytes, List.length_append, Nat.add_assoc]

-- ===================================================== what is announced

theorem toNat_mode (m : UInt8) : (m >>> 6).toNat = high m := by
  rw [UInt8.toNat_shiftRight, Nat.shiftRight_eq_div_pow]
  rfl

theorem toNat_extension (m : UInt8) : ((m >>> 3) &&& 7).toNat = middle m := by
  rw [toNat_and_seven, UInt8.toNat_shiftRight, Nat.shiftRight_eq_div_pow]
  rfl

/-- Bytes of the address that are announced behind a ModRM byte. -/
def announced (m : UInt8) : Nat := (addressBytes m).1 + (addressBytes m).2

theorem announced_eq (m : UInt8) :
    announced m = (if high m ≠ 3 ∧ low m = 4 then 1 else 0)
      + (if high m = 1 then 1 else if high m = 2 then 4 else 0) := by
  have hmode (n : UInt8) : m >>> 6 = n ↔ high m = n.toNat := by
    rw [← UInt8.toNat_inj, toNat_mode]
  have hlow : m &&& 7 = 4 ↔ low m = 4 := by
    rw [← UInt8.toNat_inj, toNat_and_seven]
    rfl
  simp [announced, addressBytes, hmode, hlow]

theorem Immediate.bytes_chosen (wide : Bool) (m : UInt8) (f : Immediate) :
    (chosen f).bytes wide m
      = if middle m = 0 then f.bytes wide m else if middle m = 1 then Option.none else some 0 := by
  have hext (n : UInt8) : (m >>> 3) &&& 7 = n ↔ middle m = n.toNat := by
    rw [← UInt8.toNat_inj, toNat_extension]
  rw [bytes]
  split
  · next h =>
      have h0 : middle m = 0 := (hext 0).mp h
      rw [if_pos h0]
  · next h =>
      have h1 : middle m = 1 := (hext 1).mp h
      rw [if_neg (by omega), if_pos h1]
  · next h0 h1 =>
      have h0 : middle m ≠ 0 := fun h => h0 ((hext 0).mpr h)
      have h1 : middle m ≠ 1 := fun h => h1 ((hext 1).mpr h)
      rw [if_neg h0, if_neg h1]

/-- What the architecture calls an immediate. -/
def Immediate.field : Immediate → ImmField
  | none => .none
  | byte => .byte
  | word => .operand
  | chosen f => .ofTest f.field

/-- A known opcode has the ModRM byte and the immediate it is expected to
have, except for two: compares with the accumulator have no ModRM byte. -/
theorem form?_of_known {o : OpByte} {f : Immediate} (h : known? o = some f) :
    o.form? = some ⟨true, f.field⟩
      ∨ f = .none ∧ (o = ⟨false, 0x3C⟩ ∨ o = ⟨false, 0x3D⟩) := by
  -- two tables of 256 entries each, compared entry by entry
  have table : ∀ (escaped : Bool) (b : Fin 256), ∀ f ∈ known? ⟨escaped, ⟨⟨b⟩⟩⟩,
      (⟨escaped, ⟨⟨b⟩⟩⟩ : OpByte).form? = some ⟨true, f.field⟩
        ∨ f = .none ∧ ((⟨escaped, ⟨⟨b⟩⟩⟩ : OpByte) = ⟨false, 0x3C⟩
          ∨ (⟨escaped, ⟨⟨b⟩⟩⟩ : OpByte) = ⟨false, 0x3D⟩) := by
    decide +kernel
  exact table o.escaped o.byte.toBitVec.toFin f h

-- ======================================================= what is misread

/-- Whether an immediate follows the width of the operand. -/
def Format.ImmField.followsOperand (m : UInt8) : ImmField → Bool
  | .operand => true
  | .ofTest field => middle m = 0 && field.followsOperand m
  | _ => false

/-- The known instructions whose length comes out wrong. The byte `m` stands
behind the opcode, and `sib` behind that if the instruction has one. -/
inductive Misread (is64 : Bool) (h : Head) (form : Form) (m : UInt8) (sib : Option UInt8) : Prop
  /-- An address without a base has a displacement even in mode 0. -/
  | noBase (hmodrm : form.modrm = true) (hlong : h.shortAddress is64 = false)
      (hmode : high m = 0) (hbase : baseField m sib = 5)
  /-- An override of the operand size does not count if the operand is wide
  anyway. -/
  | overruled (hmodrm : form.modrm = true) (himm : form.imm.followsOperand m = true)
      (hsize : 0x66 ∈ h.legacy) (hwide : h.wide = true)
  /-- Addresses of 16 bits have no SIB byte and shorter displacements. -/
  | shortAddress (hmodrm : form.modrm = true) (hshort : h.shortAddress is64 = true)
      (hmode : high m = 2 ∨ high m ≠ 3 ∧ low m = 4 ∨ high m = 0 ∧ low m = 6)
  /-- A compare with the accumulator has an immediate where a ModRM byte is
  expected; its length is right only by chance. -/
  | accumulator (hmodrm : form.modrm = false)
      (himm : form.imm.bytes? is64 h none ≠ some (1 + announced m))

/-- Bytes of an address behind its ModRM byte. -/
def addressSize (short : Bool) (m : UInt8) (sib : Option UInt8) : Nat :=
  (if hasSib short (some m) then 1 else 0) + dispBytes short (some m) sib

theorem ImmField.bytes?_ofTest (is64 : Bool) (h : Head) (m : UInt8) (field : ImmField) :
    (ImmField.ofTest field).bytes? is64 h (some m)
      = if middle m = 0 then field.bytes? is64 h (some m)
        else if middle m = 1 then none else some 0 := by
  simp only [ImmField.bytes?, Option.map_some]
  split
  · next h => rw [if_pos (Option.some.inj h)]
  · next h =>
      have h1 : middle m = 1 := Option.some.inj h
      rw [if_neg (by omega), if_pos h1]
  · next h0 h1 =>
      have h0 : middle m ≠ 0 := fun h => h0 (congrArg some h)
      have h1 : middle m ≠ 1 := fun h => h1 (congrArg some h)
      rw [if_neg h0, if_neg h1]

/-- A known immediate has the size that is announced, two bytes more if an
override of the operand size is overruled. -/
theorem Immediate.bytes?_field {is64 : Bool} {h : Head} {m : UInt8} (f : Immediate) :
    ∀ {k : Nat}, f.bytes (decide (0x66 ∈ h.legacy)) m = some k →
      f.field.bytes? is64 h (some m)
        = some (if f.field.followsOperand m = true ∧ 0x66 ∈ h.legacy ∧ h.wide = true then k + 2
            else k) := by
  induction f with
  | none =>
      intro k hk
      cases hk
      rfl
  | byte =>
      intro k hk
      cases hk
      rfl
  | word =>
      intro k hk
      cases hk
      by_cases hsize : 0x66 ∈ h.legacy
      · by_cases hwide : h.wide = true
        · simp [field, ImmField.bytes?, Head.operandBytes, ImmField.followsOperand, hsize, hwide]
        · simp [field, ImmField.bytes?, Head.operandBytes, hsize, hwide]
      · by_cases hwide : h.wide = true
        · simp [field, ImmField.bytes?, Head.operandBytes, hsize, hwide]
        · simp [field, ImmField.bytes?, Head.operandBytes, hsize, hwide]
  | chosen f ih =>
      intro k hk
      rw [bytes_chosen] at hk
      rw [field, ImmField.bytes?_ofTest]
      by_cases htest : middle m = 0
      · rw [if_pos htest] at hk
        rw [if_pos htest, ih hk]
        simp [ImmField.followsOperand, htest]
      · rw [if_neg htest] at hk
        split at hk
        · cases hk
        · next hmissing =>
            cases hk
            simp [ImmField.followsOperand, htest, hmissing]

/-- What is announced is there only if the architecture has an immediate of
some size. -/
theorem Immediate.bytes_isSome {is64 : Bool} {h : Head} {m : UInt8} {f : Immediate} (wide : Bool)
    (hk : (f.field.bytes? is64 h (some m)).isSome = true) : ∃ k, f.bytes wide m = some k := by
  induction f with
  | none => exact ⟨0, rfl⟩
  | byte => exact ⟨1, rfl⟩
  | word => exact ⟨_, rfl⟩
  | chosen f ih =>
      rw [field, ImmField.bytes?_ofTest] at hk
      rw [bytes_chosen]
      by_cases htest : middle m = 0
      · rw [if_pos htest] at hk ⊢
        exact ih hk
      · rw [if_neg htest] at hk ⊢
        by_cases hmissing : middle m = 1
        · rw [if_pos hmissing] at hk
          cases hk
        · exact ⟨0, if_neg hmissing⟩

theorem high_lt (m : UInt8) : high m < 4 := by
  have := m.toNat_lt
  rw [high]
  omega

/-- Addresses of full width are announced as they are, except for those
without a base. -/
theorem addressSize_long (m : UInt8) (sib : Option UInt8) :
    addressSize false m sib
      = announced m + if high m = 0 ∧ baseField m sib = 5 then 4 else 0 := by
  have hlt := high_lt m
  have hmode : high m = 0 ∨ high m = 1 ∨ high m = 2 ∨ high m = 3 := by omega
  simp only [addressSize, announced_eq, hasSib, dispBytes]
  obtain h | h | h | h := hmode <;> simp [h]

theorem addressSize_short_iff (m : UInt8) (sib : Option UInt8) :
    addressSize true m sib = announced m
      ↔ ¬ (high m = 2 ∨ high m ≠ 3 ∧ low m = 4 ∨ high m = 0 ∧ low m = 6) := by
  have hlt := high_lt m
  have hmode : high m = 0 ∨ high m = 1 ∨ high m = 2 ∨ high m = 3 := by omega
  simp only [addressSize, announced_eq, hasSib, dispBytes]
  obtain h | h | h | h := hmode
  · by_cases h6 : low m = 6
    · simp [h, h6]
    · by_cases h4 : low m = 4 <;> simp [h, h4, h6]
  · simp [h]
  · simp [h]
  · simp [h]

/-- Behind a ModRM byte, as many bytes follow as are announced, unless the
instruction is misread. -/
theorem sizes_agree_iff {is64 : Bool} {h : Head} {field : ImmField} {m : UInt8}
    {sib : Option UInt8} (k : Nat) (hnarrow : is64 = false → h.wide = false) :
    addressSize (h.shortAddress is64) m sib
        + (if field.followsOperand m = true ∧ 0x66 ∈ h.legacy ∧ h.wide = true then k + 2 else k)
        = announced m + k
      ↔ ¬ Misread is64 h ⟨true, field⟩ m sib := by
  cases hshort : h.shortAddress is64 with
  | true =>
      have hwide : h.wide = false := by
        simp only [Head.shortAddress, Bool.and_eq_true, Bool.not_eq_true'] at hshort
        exact hnarrow hshort.1
      rw [if_neg (by simp [hwide]), Nat.add_right_cancel_iff, addressSize_short_iff]
      refine not_congr ⟨?_, ?_⟩
      · exact .shortAddress rfl hshort
      · rintro (⟨-, hlong, -, -⟩ | ⟨-, -, -, hw⟩ | ⟨-, -, hmode⟩ | ⟨hmodrm, -⟩)
        · rw [hshort] at hlong
          cases hlong
        · rw [hwide] at hw
          cases hw
        · exact hmode
        · cases hmodrm
  | false =>
      have hexcess : ∀ (p q : Prop) [Decidable p] [Decidable q],
          announced m + (if p then 4 else 0) + (if q then k + 2 else k) = announced m + k
            ↔ ¬ (p ∨ q) := by
        intro p q _ _
        by_cases hp : p
        · rw [if_pos hp]
          refine iff_of_false ?_ fun hnot => hnot (.inl hp)
          split
          · omega
          · omega
        · rw [if_neg hp]
          split
          · next hq => simp [hq]
          · next hq => simp [hp, hq]
      rw [addressSize_long, hexcess]
      refine not_congr ⟨?_, ?_⟩
      · rintro (⟨hmode, hbase⟩ | ⟨himm, hsize, hwide⟩)
        · exact .noBase rfl hshort hmode hbase
        · exact .overruled rfl himm hsize hwide
      · rintro (⟨-, -, hmode, hbase⟩ | ⟨-, himm, hsize, hwide⟩ | ⟨-, hs, -⟩ | ⟨hmodrm, -⟩)
        · exact .inl ⟨hmode, hbase⟩
        · exact .inr ⟨himm, hsize, hwide⟩
        · rw [hshort] at hs
          cases hs
        · cases hmodrm

-- ============================================================= lengths

theorem operandLength?_cons (wide : Bool) (f : Immediate) (m : UInt8) (rest : List UInt8) :
    operandLength? wide f (m :: rest)
      = (f.bytes wide m).bind fun k =>
          if announced m + k ≤ rest.length then some (1 + (announced m + k)) else none := rfl

variable {is64 : Bool} {code rest : List UInt8} {h : Head} {m : UInt8}

/-- A length other than zero is that of a known opcode with all it
announces. -/
theorem measured (hne : instructionLength code is64 ≠ 0) :
    ∃ h m rest f k, head? is64 code = some (h, m :: rest) ∧ known? h.opcode = some f
      ∧ f.bytes (decide (0x66 ∈ h.legacy)) m = some k ∧ announced m + k ≤ rest.length
      ∧ instructionLength code is64 = h.bytes.length + (1 + (announced m + k)) := by
  cases hlen : length? is64 false code with
  | none =>
      rw [instructionLength, hlen] at hne
      exact absurd rfl hne
  | some n =>
      have hn : instructionLength code is64 = n := by
        rw [instructionLength, hlen]
        rfl
      rw [length?_eq] at hlen
      obtain ⟨⟨h, after⟩, hhead, hlen⟩ := Option.bind_eq_some_iff.mp hlen
      obtain ⟨f, hknown, hlen⟩ := Option.bind_eq_some_iff.mp hlen
      obtain ⟨size, hsize, hsum⟩ := Option.map_eq_some_iff.mp hlen
      cases after with
      | nil => cases hsize
      | cons m rest =>
          rw [operandLength?_cons] at hsize
          obtain ⟨k, hk, hsize⟩ := Option.bind_eq_some_iff.mp hsize
          split at hsize
          · next hle =>
              cases hsize
              exact ⟨h, m, rest, f, k, hhead, hknown, hk, hle, hn.trans hsum.symm⟩
          · cases hsize

theorem instructionLength_of_unknown {after : List UInt8}
    (hhead : head? is64 code = some (h, after)) (hknown : known? h.opcode = none) :
    instructionLength code is64 = 0 := by
  rw [instructionLength, length?_eq, hhead, Option.bind_some, hknown]
  rfl

theorem instructionLength_of_known {f : Immediate} {k : Nat}
    (hhead : head? is64 code = some (h, m :: rest)) (hknown : known? h.opcode = some f)
    (hk : f.bytes (decide (0x66 ∈ h.legacy)) m = some k) (hle : announced m + k ≤ rest.length) :
    instructionLength code is64 = h.bytes.length + (1 + (announced m + k)) := by
  rw [instructionLength, length?_eq, hhead, Option.bind_some, hknown, Option.bind_some,
    operandLength?_cons, hk, Option.bind_some, if_pos hle]
  rfl

/-- The SIB byte behind a ModRM byte, if the byte there is one. -/
def sibAt (short : Bool) (m : UInt8) (rest : List UInt8) : Option UInt8 :=
  if hasSib short (some m) then rest.head? else none

/-- The architecture's length of an instruction without a ModRM byte. -/
theorem extent?_of_plain {field : ImmField} {after : List UInt8} {k : Nat}
    (hhead : head? is64 code = some (h, after)) (hform : h.opcode.form? = some ⟨false, field⟩)
    (hk : field.bytes? is64 h none = some k) :
    extent? is64 code = if k ≤ after.length then some (h.bytes.length + k) else none := by
  have hsib : hasSib (h.shortAddress is64) none = false := by simp [hasSib]
  simp only [extent?, parts?, hhead, hform, byte?, hsib, dispBytes, hk, take?,
    Option.bind_eq_bind, Option.bind_some, Bool.false_eq_true, if_false, Nat.zero_le, if_true,
    List.drop_zero]
  split
  · next hle => simp [Parts.length, Parts.bytes, Nat.min_eq_left hle]
  · rfl

/-- Displacement and immediate are there if there are bytes enough for
both. -/
theorem take?_then_take? (n k : Nat) (after : List UInt8) (p : Parts) :
    ((take? n after).bind fun r => (take? k r.2).bind fun s =>
        some ({ p with disp := r.1, imm := s.1 }, s.2)).map (·.1.length)
      = if n + k ≤ after.length then
          some (p.head.bytes.length + (p.modrm.toList.length + (p.sib.toList.length + (n + k))))
        else none := by
  by_cases hn : n ≤ after.length
  · by_cases hk : n + k ≤ after.length
    · have hrest : k ≤ after.length - n := by omega
      simp [take?, hn, hk, hrest, Parts.length, Parts.bytes]
    · have hrest : ¬ k ≤ after.length - n := by omega
      simp [take?, hn, hk, hrest]
  · have hk : ¬ n + k ≤ after.length := by omega
    simp [take?, hn, hk]

/-- The architecture's length of an instruction with a ModRM byte. -/
theorem extent?_of_modrm {field : ImmField} {k : Nat}
    (hhead : head? is64 code = some (h, m :: rest)) (hform : h.opcode.form? = some ⟨true, field⟩)
    (hk : field.bytes? is64 h (some m) = some k) :
    extent? is64 code
      = let size := addressSize (h.shortAddress is64) m (sibAt (h.shortAddress is64) m rest) + k
        if size ≤ rest.length then some (h.bytes.length + (1 + size)) else none := by
  simp only [extent?, parts?, hhead, hform, hk, byte?, Option.bind_eq_bind, Option.bind_some,
    if_true, addressSize, sibAt]
  by_cases hsib : hasSib (h.shortAddress is64) (some m) = true
  · cases rest with
    | nil => simp [hsib]
    | cons s rest =>
        simp only [hsib, if_true, Option.bind_some, List.head?_cons, List.length_cons]
        refine (take?_then_take? _ k rest ⟨h, some m, some s, [], []⟩).trans ?_
        simp only [Option.toList_some, List.length_singleton, Nat.add_assoc]
        congr 1
        apply propext
        omega
  · simp only [hsib, Bool.false_eq_true, if_false, Option.bind_some]
    refine (take?_then_take? _ k rest ⟨h, some m, none, [], []⟩).trans ?_
    simp only [Option.toList_some, Option.toList_none, List.length_singleton, List.length_nil,
      Nat.zero_add]

-- ============================================================ agreement

/-- The instruction at the front is one whose length comes out wrong. -/
def MisreadAt (is64 : Bool) (code : List UInt8) : Prop :=
  ∃ h form m rest, head? is64 code = some (h, m :: rest) ∧ h.opcode.form? = some form
    ∧ Misread is64 h form m (sibAt (h.shortAddress is64) m rest)

theorem misreadAt_iff {form : Form} (hhead : head? is64 code = some (h, m :: rest))
    (hform : h.opcode.form? = some form) :
    MisreadAt is64 code ↔ Misread is64 h form m (sibAt (h.shortAddress is64) m rest) := by
  constructor
  · rintro ⟨h', form', m', rest', hhead', hform', hm⟩
    rw [hhead] at hhead'
    cases hhead'
    rw [hform] at hform'
    cases hform'
    exact hm
  · intro hm
    exact ⟨h, form, m, rest, hhead, hform, hm⟩

/-- Without a REX byte, which only 64-bit mode has, no operand is wide. -/
theorem Format.Head.Valid.narrow (hv : h.Valid is64) (hmode : is64 = false) : h.wide = false := by
  cases hrex : h.rex with
  | none =>
      rw [Head.wide, Head.rexBit, hrex]
      rfl
  | some b =>
      have := (hv.rex b hrex).1
      rw [hmode] at this
      cases this

/-- Without a ModRM byte there is one way to be misread. -/
theorem misread_plain_iff {field : ImmField} {sib : Option UInt8} :
    Misread is64 h ⟨false, field⟩ m sib ↔ field.bytes? is64 h none ≠ some (1 + announced m) := by
  constructor
  · rintro (⟨hmodrm, -⟩ | ⟨hmodrm, -⟩ | ⟨hmodrm, -⟩ | ⟨-, himm⟩)
    · cases hmodrm
    · cases hmodrm
    · cases hmodrm
    · exact himm
  · intro himm
    exact .accumulator rfl himm

/-- A length other than zero is the architecture's exactly if the
instruction is not misread. -/
theorem instructionLength_exact_iff (hne : instructionLength code is64 ≠ 0) :
    extent? is64 code = some (instructionLength code is64) ↔ ¬ MisreadAt is64 code := by
  obtain ⟨h, m, rest, f, k, hhead, hknown, hk, hle, hlen⟩ := measured hne
  obtain hform | ⟨rfl, haccumulator⟩ := form?_of_known hknown
  · have hnarrow := (head?_eq_some hhead).1.narrow
    rw [misreadAt_iff hhead hform, ← sizes_agree_iff k hnarrow,
      extent?_of_modrm hhead hform (f.bytes?_field hk), hlen]
    dsimp only
    generalize addressSize _ _ _ + _ = size
    constructor
    · intro heq
      split at heq
      · have := Option.some.inj heq
        omega
      · cases heq
    · intro heq
      rw [heq, if_pos hle]
  · cases hk
    obtain ⟨field, j, hform, hj⟩ : ∃ field j, h.opcode.form? = some ⟨false, field⟩
        ∧ field.bytes? is64 h none = some j := by
      obtain hcode | hcode := haccumulator
      · exact ⟨.byte, 1, by rw [hcode]; rfl, rfl⟩
      · exact ⟨.operand, _, by rw [hcode]; rfl, rfl⟩
    rw [misreadAt_iff hhead hform, misread_plain_iff, extent?_of_plain hhead hform hj, hlen, hj]
    rw [List.length_cons, ne_eq, Decidable.not_not, Option.some.injEq]
    constructor
    · intro heq
      split at heq
      · have := Option.some.inj heq
        omega
      · cases heq
    · intro heq
      rw [heq, if_pos (by omega)]
      rfl

/-- A load through a base with a SIB byte, a displacement of one byte and a
trailing instruction. -/
theorem instructionLength_exact_load :
    instructionLength [0x48, 0x8B, 0x44, 0x24, 0x08, 0xC3] true ≠ 0
      ∧ (extent? true [0x48, 0x8B, 0x44, 0x24, 0x08, 0xC3]
          = some (instructionLength [0x48, 0x8B, 0x44, 0x24, 0x08, 0xC3] true)
        ↔ ¬ MisreadAt true [0x48, 0x8B, 0x44, 0x24, 0x08, 0xC3]) :=
  ⟨by decide, instructionLength_exact_iff (by decide)⟩

/-- A load through `gs` has no base, and its length comes out four bytes
short. -/
theorem instructionLength_not_exact :
    ¬ ∀ (code : List UInt8) (is64 : Bool), instructionLength code is64 ≠ 0 →
      extent? is64 code = some (instructionLength code is64) := by
  intro hall
  let code : List UInt8 := [0x65, 0x48, 0x8B, 0x04, 0x25, 0xA8, 0x00, 0x00, 0x00]
  have hlength : instructionLength code true = 5 := by decide
  have hextent : extent? true code = some 9 := by decide
  have hright := hall code true (by decide)
  rw [hextent, hlength] at hright
  cases hright

end Crossing.X86
