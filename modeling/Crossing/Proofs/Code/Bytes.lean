import Crossing.Code.Buffer

/-
Bytes in a code buffer: what little-endian words spell, which bytes an
overwrite touches, and what is read back at a field. Everything about
patching rests on the two halves of `overwrite` stated here: the bytes it
wrote (`overwrite_inside`) and the bytes it left alone
(`overwrite_outside`).
-/
namespace Crossing.Code

-- ======================================================= little endian

@[simp] theorem littleEndian_length (n : Nat) :
    ∀ v, (littleEndian n v).length = n := by
  induction n with
  | zero => intro v; rfl
  | succ n ih => intro v; rw [littleEndian, List.length_cons, ih]

/-- The low bytes of a number spell its remainder. -/
theorem ofLittleEndian_littleEndian (n : Nat) :
    ∀ v, ofLittleEndian (littleEndian n v) = v % 256 ^ n := by
  induction n with
  | zero => intro v; simp [littleEndian, ofLittleEndian, Nat.mod_one]
  | succ n ih =>
      intro v
      rw [littleEndian, ofLittleEndian, ih, UInt8.toNat_ofNat', show 2 ^ 8 = 256 from rfl,
        Nat.pow_succ', Nat.mod_mul]

theorem ofLittleEndian_lt (bs : List UInt8) : ofLittleEndian bs < 256 ^ bs.length := by
  induction bs with
  | nil => decide
  | cons b bs ih =>
      have hb := b.toNat_lt
      rw [ofLittleEndian, List.length_cons, Nat.pow_succ']
      omega

-- =========================================================== overwrite

@[simp] theorem overwrite_size (bs : List UInt8) :
    ∀ (code : Array UInt8) (at_ : Nat), (overwrite code at_ bs).size = code.size := by
  induction bs with
  | nil => intro code at_; rfl
  | cons b bs ih =>
      intro code at_
      rw [overwrite, ih, Array.size_setIfInBounds]

/-- An overwrite leaves the bytes before and after it alone. -/
theorem overwrite_outside (bs : List UInt8) :
    ∀ {code : Array UInt8} {at_ i : Nat}, i < at_ ∨ at_ + bs.length ≤ i →
      (overwrite code at_ bs)[i]? = code[i]? := by
  induction bs with
  | nil => intro code at_ i _; rfl
  | cons b bs ih =>
      intro code at_ i hi
      rw [List.length_cons] at hi
      rw [overwrite, ih (by omega), Array.getElem?_setIfInBounds_ne (by omega)]

/-- An overwrite that fits leaves its own bytes where it wrote them. -/
theorem overwrite_inside (bs : List UInt8) :
    ∀ (code : Array UInt8) (at_ k : Nat), at_ + bs.length ≤ code.size → k < bs.length →
      (overwrite code at_ bs)[at_ + k]? = bs[k]? := by
  induction bs with
  | nil => intro code at_ k _ hk; cases hk
  | cons b bs ih =>
      intro code at_ k hroom hk
      rw [List.length_cons] at hroom hk
      cases k with
      | zero =>
          rw [overwrite, overwrite_outside bs (by omega), Nat.add_zero,
            Array.getElem?_setIfInBounds_self_of_lt (by omega)]
          rfl
      | succ k =>
          have := ih (code.setIfInBounds at_ b) (at_ + 1) k
            (by rw [Array.size_setIfInBounds]; omega) (by omega)
          rw [overwrite, show at_ + (k + 1) = at_ + 1 + k by omega, this]
          rfl

end Crossing.Code

namespace Crossing.CodeBuffer

open Code

-- =============================================================== words

/-- Bytes that stand one after the other are read as the number they
spell. -/
theorem read_eq_ofLittleEndian (bs : List UInt8) :
    ∀ (code : Array UInt8) (i : Nat), (∀ k < bs.length, code[i + k]? = bs[k]?) →
      wordAt.read code bs.length i = .ok (ofLittleEndian bs) := by
  induction bs with
  | nil => intro code i _; rfl
  | cons b bs ih =>
      intro code i h
      have hhead : code[i]? = some b := by simpa using h 0 (by simp)
      have htail := ih code (i + 1) fun k hk => by
        have := h (k + 1) (by rw [List.length_cons]; omega)
        rw [show i + 1 + k = i + (k + 1) by omega, this]
        rfl
      rw [List.length_cons, wordAt.read, hhead]
      simp only [htail, Except.map, ofLittleEndian]

/-- A field inside the code holds some word of 32 bits. -/
theorem wordAt_of_inside {code : Array UInt8} {at_ : Nat} (h : at_ + 4 ≤ code.size) :
    ∃ w, w < 2 ^ 32 ∧ wordAt code at_ = .ok w := by
  let bs : List UInt8 := (code.toList.drop at_).take 4
  have hlen : bs.length = 4 := by
    simp only [bs, List.length_take, List.length_drop, Array.length_toList]
    omega
  refine ⟨ofLittleEndian bs, ?_, ?_⟩
  · have := ofLittleEndian_lt bs
    rwa [hlen] at this
  · have := read_eq_ofLittleEndian bs code at_ fun k hk => by
      rw [List.getElem?_take_of_lt (by omega), List.getElem?_drop, Array.getElem?_toList]
    rwa [hlen] at this

/-- What is read at a field depends on its four bytes only. -/
theorem wordAt_congr {code code' : Array UInt8} {at_ : Nat} (hsize : code'.size = code.size)
    (h : ∀ k < 4, code'[at_ + k]? = code[at_ + k]?) : wordAt code' at_ = wordAt code at_ := by
  suffices key : ∀ n i, (∀ k < n, code'[i + k]? = code[i + k]?) →
      wordAt.read code' n i = wordAt.read code n i from key 4 at_ h
  intro n
  induction n with
  | zero => intro i _; rfl
  | succ n ih =>
      intro i hi
      have hhead : code'[i]? = code[i]? := hi 0 (by omega)
      have htail := ih (i + 1) fun k hk => by
        rw [show i + 1 + k = i + (k + 1) by omega]
        exact hi (k + 1) (by omega)
      rw [wordAt.read, wordAt.read, hhead, htail, hsize]

/-- A word written into a field is read back from it. -/
theorem wordAt_overwrite {code : Array UInt8} {at_ : Nat} (h : at_ + 4 ≤ code.size) (v : Nat) :
    wordAt (overwrite code at_ (littleEndian 4 v)) at_ = .ok (v % 2 ^ 32) := by
  have hlen := littleEndian_length 4 v
  have := read_eq_ofLittleEndian (littleEndian 4 v) (overwrite code at_ (littleEndian 4 v)) at_
    fun k hk => overwrite_inside _ code at_ k (by omega) hk
  rwa [hlen, ofLittleEndian_littleEndian] at this

end Crossing.CodeBuffer
