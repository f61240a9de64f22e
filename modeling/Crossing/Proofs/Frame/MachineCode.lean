import Crossing.Proofs.Frame.A64
import Crossing.Proofs.Frame.X86
import Crossing.Proofs.X86.Disassembly

/-
Machine code, run from its bytes: the processor reads the instruction at
the front, carries it out and goes on with what follows. Only additions and
subtractions of an immediate have a meaning here. On x86-64 the bytes are
those that the disassembler reads; on ARM64 the fields of a word are read
here. What instructions do one by one, their bytes do in a row
(`executes_of_follow`).
-/
namespace Crossing

open Code

namespace Glue

section Executes

variable {σ ι : Type} {next : List UInt8 → σ → Option (σ × List UInt8)}

/-- Machine code runs from its first byte to its last. `next` carries out
the instruction at the front and gives what follows it. -/
inductive Executes (next : List UInt8 → σ → Option (σ × List UInt8)) : List UInt8 → σ → σ → Prop where
  | done (s : σ) : Executes next [] s s
  | step {code rest : List UInt8} {s s₁ s' : σ} (h : next code s = some (s₁, rest))
      (hrest : Executes next rest s₁ s') : Executes next code s s'

/-- A run has one end only. -/
theorem Executes.unique (hempty : ∀ s, next [] s = none) {code : List UInt8} {s s₁ s₂ : σ}
    (h : Executes next code s s₁) (h' : Executes next code s s₂) : s₁ = s₂ := by
  induction h with
  | done s =>
      cases h' with
      | done => rfl
      | step hnext _ =>
          rw [hempty] at hnext
          cases hnext
  | step hnext _ ih =>
      cases h' with
      | done =>
          rw [hempty] at hnext
          cases hnext
      | step hnext' hrest' =>
          rw [hnext] at hnext'
          cases hnext'
          exact ih hrest'

/-- Instructions do in machine code what they do one by one, if each of
them is read back from its bytes. -/
theorem executes_of_follow {step : ι → σ → Option (Flow σ)} {bytes : ι → List UInt8} {is : List ι} :
    (∀ i ∈ is, ∀ s s' rest, step i s = some (.next s') →
      next (bytes i ++ rest) s = some (s', rest)) →
    ∀ {s s'}, follow step is s = some (.next s') → Executes next (is.flatMap bytes) s s' := by
  induction is with
  | nil =>
      intro _ s s' h
      cases h
      exact .done s
  | cons i is ih =>
      intro hread s s' h
      rw [follow] at h
      cases hi : step i s with
      | none =>
          rw [hi] at h
          cases h
      | some flow =>
          rw [hi] at h
          cases flow with
          | back address s₁ => cases h
          | next s₁ =>
              refine .step (hread i List.mem_cons_self s s₁ _ hi) ?_
              exact ih (fun j hj => hread j (List.mem_cons_of_mem i hj)) h

end Executes

end Glue

-- ================================================================ x86-64

namespace X86

open Glue

/-- What adding a constant to a register does, or subtracting it. -/
def Operation.run? : Operation → Cpu → Option Cpu
  | ⟨.add, [.reg .quad r, .imm v], false⟩, s =>
      let sum := s.reg r + UInt64.ofNat v
      some { s.set r sum with zeroFlag := sum = 0 }
  | ⟨.sub, [.reg .quad r, .imm v], false⟩, s =>
      let difference := s.reg r - UInt64.ofNat v
      some { s.set r difference with zeroFlag := difference = 0 }
  | _, _ => none

/-- Carries out the instruction at the front of machine code. -/
def next (code : List UInt8) (s : Cpu) : Option (Cpu × List UInt8) := do
  let (op, rest) ← disassemble code
  return (← op.run? s, rest)

theorem next_nil (s : Cpu) : next [] s = none := rfl

/-- An immediate as the processor extends it. -/
theorem ofNat_wordOf (imm : Int32) :
    UInt64.ofNat (wordOf 64 imm.toInt) = imm.toInt64.toUInt64 := by
  rw [← Int64.ofInt_int32ToInt]
  apply UInt64.toBitVec_inj.mp
  show BitVec.ofNat 64 (imm.toInt % 2 ^ 64).toNat = BitVec.ofInt 64 imm.toInt
  apply BitVec.eq_of_toNat_eq
  simp only [BitVec.toNat_ofNat, BitVec.toNat_ofInt]
  omega

theorem next_arith {op : Arith} (hop : op = .add ∨ op = .sub) {r : Reg} {imm : Int32} {s s' : Cpu}
    {rest : List UInt8} (h : step (.arith op r imm) s = some (.next s')) :
    next ((Instr.arith op r imm).bytes ++ rest) s = some (s', rest) := by
  obtain ⟨o, ho, hnames⟩ := (Instr.arith op r imm).parts_operation fun _ hx => nomatch hx
  have hread : disassemble ((Instr.arith op r imm).bytes ++ rest) = some (o, rest) := by
    rw [disassemble, (Instr.arith op r imm).parts_encodes.parts? rest]
    simp [ho]
  cases hnames
  simp only [next, hread, Option.bind_eq_bind, Option.bind_some]
  rcases hop with rfl | rfl
  · cases h
    simp only [Operation.run?, Arith.mnemonic, ofNat_wordOf]
    rfl
  · cases h
    simp only [Operation.run?, Arith.mnemonic, ofNat_wordOf]
    rfl

end X86

-- ================================================================= ARM64

namespace A64

open Glue

/-- Addition and subtraction of an immediate, read from their word: the
upper ten bits say which it is and whether the immediate counts in units of
4096. -/
def immediate? (word : Nat) : Option Instr :=
  let imm : Imm12 := ⟨Fin.ofNat 4096 (word / 2 ^ 10)⟩
  let rn : Reg := ⟨Fin.ofNat 32 (word / 2 ^ 5)⟩
  let rd : Reg := ⟨Fin.ofNat 32 word⟩
  match word / 2 ^ 22 with
  | 0x244 => some (.addImm rd rn imm)
  | 0x245 => some (.addImmHigh rd rn imm)
  | 0x344 => some (.subImm rd rn imm)
  | 0x345 => some (.subImmHigh rd rn imm)
  | _ => none

/-- Carries out the instruction at the front of machine code, which is a
word. -/
def next : List UInt8 → Cpu → Option (Cpu × List UInt8)
  | b₀ :: b₁ :: b₂ :: b₃ :: rest, s => do
      match step (← immediate? (ofLittleEndian [b₀, b₁, b₂, b₃])) s with
      | some (.next s') => some (s', rest)
      | _ => none
  | _, _ => none

theorem next_nil (s : Cpu) : next [] s = none := rfl

/-- The fields of a word do not run into each other. -/
theorem word_fields {top : Nat} (htop : top < 2 ^ 10) (imm : Imm12) (rn rd : Reg) :
    (UInt32.ofNat (2 ^ 22 * top) ||| imm.field ||| rnRd rn.code rd.code).toNat
      = 2 ^ 22 * top + 2 ^ 10 * imm.value + (2 ^ 5 * rn.index + rd.index) := by
  have himm := imm.value.isLt
  have hn := rn.index.isLt
  have hd := rd.index.isLt
  have hfield : imm.value.val <<< 10 % 2 ^ 32 = 2 ^ 10 * imm.value := by
    rw [Nat.shiftLeft_eq]
    omega
  have hbase : rn.index.val <<< 5 % 2 ^ 32 = 2 ^ 5 * rn.index := by
    rw [Nat.shiftLeft_eq]
    omega
  have hregs : 2 ^ 5 * rn.index.val ||| rd.index.val = 2 ^ 5 * rn.index + rd.index :=
    (Nat.two_pow_add_eq_or_of_lt hd _).symm
  have hupper : 2 ^ 22 * top ||| 2 ^ 10 * imm.value.val = 2 ^ 22 * top + 2 ^ 10 * imm.value :=
    (Nat.two_pow_add_eq_or_of_lt (by omega) _).symm
  have hword : 2 ^ 10 * (2 ^ 12 * top + imm.value) ||| (2 ^ 5 * rn.index.val + rd.index)
      = 2 ^ 10 * (2 ^ 12 * top + imm.value) + (2 ^ 5 * rn.index + rd.index) :=
    (Nat.two_pow_add_eq_or_of_lt (by omega) _).symm
  have hsplit : 2 ^ 22 * top + 2 ^ 10 * imm.value.val = 2 ^ 10 * (2 ^ 12 * top + imm.value) := by
    omega
  have hn32 : rn.index.val % 2 ^ 32 = rn.index := Nat.mod_eq_of_lt (by omega)
  have hd32 : rd.index.val % 2 ^ 32 = rd.index := Nat.mod_eq_of_lt (by omega)
  have himm32 : imm.value.val % 2 ^ 32 = imm.value := Nat.mod_eq_of_lt (by omega)
  have htop32 : 2 ^ 22 * top % 2 ^ 32 = 2 ^ 22 * top := Nat.mod_eq_of_lt (by omega)
  simp only [Imm12.field, rnRd, Reg.code, UInt32.toNat_or, UInt32.toNat_shiftLeft,
    UInt32.toNat_ofNat', hn32, hd32, himm32, htop32]
  show (2 ^ 22 * top ||| imm.value.val <<< 10 % 2 ^ 32)
    ||| (rn.index.val <<< 5 % 2 ^ 32 ||| rd.index.val) = _
  rw [hfield, hbase, hregs, hupper, hsplit, hword]

/-- Instructions that add an immediate or subtract one. -/
def Instr.Immediate : Instr → Prop
  | addImm .. | subImm .. | addImmHigh .. | subImmHigh .. => True
  | _ => False

/-- Reading a word gives back its fields. -/
theorem immediate?_fields (top : Nat) (htop : top < 2 ^ 10) (imm : Imm12) (rn rd : Reg)
    {word : UInt32} (hword : word = UInt32.ofNat (2 ^ 22 * top) ||| imm.field ||| rnRd rn.code rd.code) :
    immediate? word.toNat = match top with
      | 0x244 => some (.addImm rd rn imm)
      | 0x245 => some (.addImmHigh rd rn imm)
      | 0x344 => some (.subImm rd rn imm)
      | 0x345 => some (.subImmHigh rd rn imm)
      | _ => none := by
  have himm := imm.value.isLt
  have hn := rn.index.isLt
  have hd := rd.index.isLt
  have hvalue := hword ▸ word_fields htop imm rn rd
  have htop' : word.toNat / 2 ^ 22 = top := by omega
  have himm' : (⟨Fin.ofNat 4096 (word.toNat / 2 ^ 10)⟩ : Imm12) = imm :=
    congrArg Imm12.mk (Fin.ext (show word.toNat / 2 ^ 10 % 4096 = imm.value by omega))
  have hn' : (⟨Fin.ofNat 32 (word.toNat / 2 ^ 5)⟩ : Reg) = rn :=
    congrArg Reg.mk (Fin.ext (show word.toNat / 2 ^ 5 % 32 = rn.index by omega))
  have hd' : (⟨Fin.ofNat 32 word.toNat⟩ : Reg) = rd :=
    congrArg Reg.mk (Fin.ext (show word.toNat % 32 = rd.index by omega))
  simp only [immediate?, htop', himm', hn', hd']

theorem immediate?_word {i : Instr} (hi : i.Immediate) : immediate? i.word.toNat = some i := by
  cases i with
  | addImm rd rn imm => exact immediate?_fields 0x244 (by decide) imm rn rd rfl
  | addImmHigh rd rn imm => exact immediate?_fields 0x245 (by decide) imm rn rd rfl
  | subImm rd rn imm => exact immediate?_fields 0x344 (by decide) imm rn rd rfl
  | subImmHigh rd rn imm => exact immediate?_fields 0x345 (by decide) imm rn rd rfl
  | _ => exact hi.elim

/-- Whatever holds of the instructions for either half holds of those that
add by halves. -/
theorem forall_byHalves {P : Instr → Prop} {high low : Reg → Reg → Imm12 → Instr}
    (hhigh : ∀ rd rn imm, P (high rd rn imm)) (hlow : ∀ rd rn imm, P (low rd rn imm)) (rd rn : Reg)
    (imm : Imm24) : ∀ i ∈ Instr.byHalves high low rd rn imm, P i := by
  intro i hi
  unfold Instr.byHalves at hi
  dsimp only at hi
  split at hi
  · obtain rfl := List.mem_singleton.mp hi
    exact hlow ..
  · split at hi
    · obtain rfl := List.mem_singleton.mp hi
      exact hhigh ..
    · simp only [List.mem_cons, List.not_mem_nil, or_false] at hi
      rcases hi with rfl | rfl
      · exact hhigh ..
      · exact hlow ..

/-- An instruction is four bytes, which spell its word. -/
theorem encode_bytes (i : Instr) : ∃ b₀ b₁ b₂ b₃, i.encode.bytes = [b₀, b₁, b₂, b₃]
    ∧ ofLittleEndian [b₀, b₁, b₂, b₃] = i.word.toNat := by
  refine ⟨_, _, _, _, rfl, ?_⟩
  have hword := ofLittleEndian_littleEndian 4 i.word.toNat
  rw [Nat.mod_eq_of_lt i.word.toNat_lt] at hword
  exact hword

theorem next_immediate {i : Instr} (hi : i.Immediate) {s s' : Cpu} {rest : List UInt8}
    (h : step i s = some (.next s')) : next (i.encode.bytes ++ rest) s = some (s', rest) := by
  obtain ⟨b₀, b₁, b₂, b₃, hbytes, hword⟩ := encode_bytes i
  simp only [hbytes, List.cons_append, List.nil_append, next, hword, immediate?_word hi,
    Option.bind_eq_bind, Option.bind_some, h]

end A64

end Crossing
