import Crossing.Proofs.Code.Bytes

/-
Branch fields, read the way a processor reads them: `branchTarget` is where
a branch goes, computed from the word that stands at its field, and
`FieldKind.holds` says which bits of that word are the displacement. The
file ends with what patching one field achieves (`patch_reached`): the
branch goes to its label, and no other bit of the code has changed.
-/
namespace Crossing.Code

-- ============================================================= reading

/-- Whether bit `i` of the word at a field belongs to the displacement. -/
def FieldKind.holds : FieldKind → Nat → Bool
  | .rel32, i => i < 32
  | .imm26, i => i < 26
  | .imm19, i => 5 ≤ i && i < 24

/-- The low `bits` bits of a word as a signed number. -/
def signed (bits word : Nat) : Int := Int.bmod word (2 ^ bits)

/-- Where a branch goes whose field is at `at_` and holds `word`. -/
def branchTarget (kind : FieldKind) (at_ word : Nat) : Int :=
  match kind with
  | .rel32 => at_ + 4 + signed 32 word
  | .imm26 => at_ + 4 * signed 26 word
  | .imm19 => at_ + 4 * signed 19 (word >>> 5)

/-- Whether a field of this kind at `at_` can name `target`: a signed
32-bit distance from the end of the field, or a signed 26-bit or 19-bit
count of words from its start. -/
def FieldKind.reaches (kind : FieldKind) (at_ target : Nat) : Bool :=
  match kind with
  | .rel32 =>
      -(2 ^ 31 : Int) ≤ (target : Int) - (at_ + 4) && (target : Int) - (at_ + 4) < 2 ^ 31
  | .imm26 => -(2 ^ 25 : Int) ≤ ((target : Int) - at_) / 4 && ((target : Int) - at_) / 4 < 2 ^ 25
  | .imm19 => -(2 ^ 18 : Int) ≤ ((target : Int) - at_) / 4 && ((target : Int) - at_) / 4 < 2 ^ 18

/-- Word counts are exact between a field and a target of the same
alignment; displacements of 32 bits count bytes. -/
def FieldKind.Aligned (kind : FieldKind) (at_ target : Nat) : Prop :=
  kind ≠ .rel32 → (4 : Int) ∣ (target : Int) - at_

/-- A signed number that fits is recovered from its low bits. -/
theorem signed_emod {bits : Nat} (hpos : 0 < bits) {v : Int}
    (hfits : CodeBuffer.fits bits v = true) : signed bits (v % 2 ^ bits).toNat = v := by
  simp only [CodeBuffer.fits, Bool.and_eq_true, decide_eq_true_eq] at hfits
  have hmod : 0 ≤ v % (2 ^ bits : Int) := Int.emod_nonneg v (Int.pow_ne_zero (by decide))
  have hhalf : (2 ^ bits : Nat) = 2 ^ (bits - 1) * 2 := by
    rw [← Nat.pow_succ, Nat.succ_eq_add_one, Nat.sub_add_cancel hpos]
  have hcast : ((2 ^ bits : Nat) : Int) = 2 ^ (bits - 1) * 2 := by
    rw [hhalf, Int.natCast_mul, Int.natCast_pow]
    rfl
  have hmodulus : (2 ^ bits : Int) = ((2 ^ bits : Nat) : Int) := (Int.natCast_pow 2 bits).symm
  rw [signed, Int.toNat_of_nonneg hmod, hmodulus, Int.emod_bmod]
  exact Int.bmod_eq_of_le_mul_two (by omega) (by omega)

-- ============================================================= writing

/-- For an aligned target, the reach of a field is what its bits can
hold. -/
theorem fits_displacement {kind : FieldKind} {at_ target : Nat}
    (ha : kind.Aligned at_ target) :
    CodeBuffer.fits (CodeBuffer.fieldBits kind) (CodeBuffer.displacement kind at_ target)
      = kind.reaches at_ target := by
  cases kind with
  | rel32 => rfl
  | imm26 =>
      have hd := ha (by decide)
      simp only [CodeBuffer.fits, CodeBuffer.fieldBits, CodeBuffer.displacement,
        FieldKind.reaches, Int.tdiv_eq_ediv_of_dvd hd]
  | imm19 =>
      have hd := ha (by decide)
      simp only [CodeBuffer.fits, CodeBuffer.fieldBits, CodeBuffer.displacement,
        FieldKind.reaches, Int.tdiv_eq_ediv_of_dvd hd]

/-- The bits of a mask that keeps everything from bit 26 on. -/
theorem testBit_opcode26 {i : Nat} (hi : i < 32) : Nat.testBit 0xFC000000 i = decide (26 ≤ i) := by
  have : ∀ i < 32, Nat.testBit 0xFC000000 i = decide (26 ≤ i) := by decide
  exact this i hi

/-- The bits of a mask that keeps everything but bits 5 to 23. -/
theorem testBit_opcode19 {i : Nat} (hi : i < 32) :
    Nat.testBit 0xFF00001F i = (decide (i < 5) || decide (24 ≤ i)) := by
  have : ∀ i < 32, Nat.testBit 0xFF00001F i = (decide (i < 5) || decide (24 ≤ i)) := by decide
  exact this i hi

/-- The residue of a displacement is a number of as many bits. -/
theorem toNat_emod_two_pow_lt (v : Int) (bits : Nat) : (v % 2 ^ bits).toNat < 2 ^ bits := by
  have hpos : (0 : Int) < 2 ^ bits := Int.pow_pos (by decide)
  have hlt := Int.emod_lt_of_pos v hpos
  have hmod := Int.emod_nonneg v (Int.ne_of_gt hpos)
  have hcast : ((2 ^ bits : Nat) : Int) = 2 ^ bits := Int.natCast_pow 2 bits
  omega

/-- A patched word is again a word of 32 bits. -/
theorem withDisplacement_lt (kind : FieldKind) (word : Nat) (v : Int) :
    CodeBuffer.withDisplacement kind word v < 2 ^ 32 := by
  cases kind with
  | rel32 => exact toNat_emod_two_pow_lt v 32
  | imm26 =>
      have hv := toNat_emod_two_pow_lt v 26
      refine Nat.or_lt_two_pow (Nat.lt_of_le_of_lt Nat.and_le_right (by decide)) ?_
      omega
  | imm19 =>
      have hv := toNat_emod_two_pow_lt v 19
      refine Nat.or_lt_two_pow (Nat.lt_of_le_of_lt Nat.and_le_right (by decide)) ?_
      rw [Nat.shiftLeft_eq]
      omega

/-- Putting a displacement in changes no bit outside the field. -/
theorem testBit_withDisplacement {kind : FieldKind} {word i : Nat} (v : Int)
    (hword : word < 2 ^ 32) (hi : kind.holds i = false) :
    (CodeBuffer.withDisplacement kind word v).testBit i = word.testBit i := by
  by_cases h32 : i < 32
  · cases kind with
    | rel32 => simp [FieldKind.holds, h32] at hi
    | imm26 =>
        have hv : (v % 2 ^ 26).toNat.testBit i = false := by
          refine Nat.testBit_lt_two_pow (Nat.lt_of_lt_of_le (toNat_emod_two_pow_lt v 26) ?_)
          simp only [FieldKind.holds, decide_eq_false_iff_not] at hi
          exact Nat.pow_le_pow_right (by decide) (by omega)
        simp only [FieldKind.holds, decide_eq_false_iff_not, Nat.not_lt] at hi
        rw [CodeBuffer.withDisplacement, Nat.testBit_or, Nat.testBit_and, testBit_opcode26 h32, hv]
        simp [hi]
    | imm19 =>
        have hmask : (decide (i < 5) || decide (24 ≤ i)) = true := by
          simp only [FieldKind.holds, Bool.and_eq_false_iff, decide_eq_false_iff_not] at hi
          simp only [Bool.or_eq_true, decide_eq_true_eq]
          omega
        have hv : ((v % 2 ^ 19).toNat <<< 5).testBit i = false := by
          rw [Nat.testBit_shiftLeft]
          by_cases h5 : 5 ≤ i
          · have hi' : 24 ≤ i := by
              simp only [Bool.or_eq_true, decide_eq_true_eq] at hmask
              omega
            have : (v % 2 ^ 19).toNat.testBit (i - 5) = false := by
              refine Nat.testBit_lt_two_pow (Nat.lt_of_lt_of_le (toNat_emod_two_pow_lt v 19) ?_)
              exact Nat.pow_le_pow_right (by decide) (by omega)
            rw [this, Bool.and_false]
          · simp [h5]
        rw [CodeBuffer.withDisplacement, Nat.testBit_or, Nat.testBit_and, testBit_opcode19 h32, hv,
          hmask, Bool.and_true, Bool.or_false]
  · have hbig : 2 ^ 32 ≤ 2 ^ i := Nat.pow_le_pow_right (by decide) (by omega)
    rw [Nat.testBit_lt_two_pow (Nat.lt_of_lt_of_le (withDisplacement_lt kind word v) hbig),
      Nat.testBit_lt_two_pow (Nat.lt_of_lt_of_le hword hbig)]

/-- Only the low bits of a word count for its signed reading. -/
theorem signed_mod (bits word : Nat) : signed bits (word % 2 ^ bits) = signed bits word := by
  rw [signed, signed, Int.natCast_emod, Int.emod_bmod]

/-- The low bits of a patched word are the displacement. -/
theorem withDisplacement_imm26_mod (word : Nat) (v : Int) :
    CodeBuffer.withDisplacement .imm26 word v % 2 ^ 26 = (v % 2 ^ 26).toNat := by
  rw [CodeBuffer.withDisplacement, Nat.or_mod_two_pow, Nat.and_mod_two_pow,
    show 0xFC000000 % 2 ^ 26 = 0 from rfl, Nat.and_zero, Nat.zero_or,
    Nat.mod_eq_of_lt (toNat_emod_two_pow_lt v 26)]

/-- Bits 5 to 23 of a patched word are the displacement. -/
theorem withDisplacement_imm19_mod (word : Nat) (v : Int) :
    (CodeBuffer.withDisplacement .imm19 word v >>> 5) % 2 ^ 19 = (v % 2 ^ 19).toNat := by
  rw [CodeBuffer.withDisplacement, Nat.shiftRight_or_distrib, Nat.shiftRight_and_distrib,
    Nat.shiftLeft_shiftRight, Nat.or_mod_two_pow, Nat.and_mod_two_pow,
    show (0xFF00001F >>> 5) % 2 ^ 19 = 0 from rfl, Nat.and_zero, Nat.zero_or,
    Nat.mod_eq_of_lt (toNat_emod_two_pow_lt v 19)]

/-- A branch whose field was patched for a target in reach goes there. -/
theorem branchTarget_withDisplacement {kind : FieldKind} {at_ target : Nat} (word : Nat)
    (ha : kind.Aligned at_ target) (hr : kind.reaches at_ target = true) :
    branchTarget kind at_
        (CodeBuffer.withDisplacement kind word (CodeBuffer.displacement kind at_ target))
      = target := by
  have hfits := (fits_displacement ha).trans hr
  cases kind with
  | rel32 =>
      have hv := signed_emod (by decide) hfits
      simp only [branchTarget, CodeBuffer.withDisplacement, CodeBuffer.fieldBits] at hv ⊢
      rw [hv, CodeBuffer.displacement]
      omega
  | imm26 =>
      have hv := signed_emod (by decide) hfits
      have hd := Int.mul_ediv_cancel' (ha (by decide))
      rw [branchTarget, ← signed_mod, withDisplacement_imm26_mod]
      simp only [CodeBuffer.fieldBits] at hv
      rw [hv, CodeBuffer.displacement, Int.tdiv_eq_ediv_of_dvd (ha (by decide))]
      omega
  | imm19 =>
      have hv := signed_emod (by decide) hfits
      have hd := Int.mul_ediv_cancel' (ha (by decide))
      rw [branchTarget, ← signed_mod, withDisplacement_imm19_mod]
      simp only [CodeBuffer.fieldBits] at hv
      rw [hv, CodeBuffer.displacement, Int.tdiv_eq_ediv_of_dvd (ha (by decide))]
      omega

end Crossing.Code

namespace Crossing.CodeBuffer

open Code

-- =========================================================== one patch

/-- The branch at a field goes to `target` in `code'`, and the rest of its
word is as in `code`. -/
def FieldPatched (f : Fixup) (target : Nat) (code code' : Array UInt8) : Prop :=
  ∃ w w', wordAt code f.at_ = .ok w ∧ wordAt code' f.at_ = .ok w'
    ∧ branchTarget f.kind f.at_ w' = target
    ∧ ∀ i, f.kind.holds i = false → w'.testBit i = w.testBit i

/-- What patching a field for a target means: the branch goes to the
target, the rest of its word and all other bytes are as before. -/
structure Patched (f : Fixup) (target : Nat) (code code' : Array UInt8) : Prop where
  size : code'.size = code.size
  outside : ∀ i, i < f.at_ ∨ f.at_ + 4 ≤ i → code'[i]? = code[i]?
  field : FieldPatched f target code code'

/-- Overwriting a field with its patched word patches it. A displacement of
32 bits is the whole word, so what stood there before does not matter. -/
theorem patched_overwrite {f : Fixup} {code : Array UInt8} {target w : Nat} (w₀ : Nat)
    (hin : f.at_ + 4 ≤ code.size) (hw : wordAt code f.at_ = .ok w) (hlt : w < 2 ^ 32)
    (hw₀ : f.kind ≠ .rel32 → w₀ = w) (ha : f.kind.Aligned f.at_ target)
    (hr : f.kind.reaches f.at_ target = true) :
    Patched f target code (overwrite code f.at_ (littleEndian 4
      (withDisplacement f.kind w₀ (displacement f.kind f.at_ target)))) where
  size := overwrite_size _ _ _
  outside i hi := overwrite_outside _ (by rw [littleEndian_length]; exact hi)
  field := by
    refine ⟨w, _, hw, wordAt_overwrite hin _, ?_, ?_⟩
    · rw [Nat.mod_eq_of_lt (withDisplacement_lt _ _ _)]
      exact branchTarget_withDisplacement w₀ ha hr
    · intro i hi
      rw [Nat.mod_eq_of_lt (withDisplacement_lt _ _ _)]
      cases hk : f.kind with
      | rel32 =>
          rw [hk] at hi
          have h32 : 2 ^ 32 ≤ 2 ^ i := Nat.pow_le_pow_right (by decide) (by
            simp only [FieldKind.holds, decide_eq_false_iff_not] at hi
            omega)
          rw [Nat.testBit_lt_two_pow (Nat.lt_of_lt_of_le (withDisplacement_lt _ _ _) h32),
            Nat.testBit_lt_two_pow (Nat.lt_of_lt_of_le hlt h32)]
      | imm26 =>
          rw [hw₀ (by rw [hk]; decide)]
          exact testBit_withDisplacement _ hlt (hk ▸ hi)
      | imm19 =>
          rw [hw₀ (by rw [hk]; decide)]
          exact testBit_withDisplacement _ hlt (hk ▸ hi)

variable {labels : Array (Option Nat)} {code : Array UInt8} {f : Fixup} {target : Nat}

/-- A field in reach of its label is patched. -/
theorem patch_reached (hin : f.at_ + 4 ≤ code.size)
    (hpos : (labels[f.label]?).join = some target) (ha : f.kind.Aligned f.at_ target)
    (hr : f.kind.reaches f.at_ target = true) :
    ∃ code', patch labels code f = .ok (.ok code') ∧ Patched f target code code' := by
  obtain ⟨w, hlt, hw⟩ := wordAt_of_inside hin
  have hfits := (fits_displacement ha).trans hr
  cases hk : f.kind with
  | rel32 =>
      refine ⟨_, ?_, patched_overwrite 0 hin hw hlt (fun h => absurd hk h) ha hr⟩
      rw [hk] at hfits
      simp only [patch, hpos, hk, hfits, if_true, hin]
  | imm26 =>
      refine ⟨_, ?_, patched_overwrite w hin hw hlt (fun _ => rfl) ha hr⟩
      rw [hk] at hfits
      simp only [patch, hpos, hk, hfits, if_true, hw]
      rfl
  | imm19 =>
      refine ⟨_, ?_, patched_overwrite w hin hw hlt (fun _ => rfl) ha hr⟩
      rw [hk] at hfits
      simp only [patch, hpos, hk, hfits, if_true, hw]
      rfl

/-- A label that is bound nowhere is reported. -/
theorem patch_unbound (hpos : (labels[f.label]?).join = none) :
    patch labels code f = .ok (.error (.unbound f.label)) := by
  rw [patch, hpos]

/-- A label out of reach is reported. -/
theorem patch_unreached (hpos : (labels[f.label]?).join = some target)
    (ha : f.kind.Aligned f.at_ target) (hr : f.kind.reaches f.at_ target = false) :
    patch labels code f = .ok (.error (.outOfRange f.label)) := by
  have hfits := (fits_displacement ha).trans hr
  simp only [patch, hpos, hfits, Bool.false_eq_true, if_false]

end Crossing.CodeBuffer
