import Crossing.Service.Arithmetic

/-
Division of machine integers. `Divided` says what a quotient and a remainder
of some width are, as integers and without the operations that compute them:
together they give the dividend back, the remainder is smaller than the
divisor and on the dividend's side of zero, and the quotient is the true one
without its fraction. One quotient does not fit its width, that of the least
integer and -1, and it wraps to the least integer again.

That wrapped division has these properties is the same argument for every
width (`divided_wrapped`). The services of 64 bits give the two numbers one
by one; the one of 32 bits packs them into a word, where the sign of neither
may reach into the half of the other.
-/
namespace Crossing.Service

/-- Quotient and remainder of two integers of a width. -/
structure Divided (width : Nat) (a b q r : Int) : Prop where
  /-- Put together again they are the dividend, up to whole turns. -/
  sum : (q * b + r).bmod (2 ^ width) = a
  /-- The remainder is zero or has the sign of the dividend. -/
  sign : r = 0 ∨ r.sign = a.sign
  smaller : r.natAbs < b.natAbs
  /-- The quotient is exact, less its fraction, where it fits the width. -/
  truncated : ¬(a = -2 ^ (width - 1) ∧ b = -1) → q = a.tdiv b
  /-- The one that does not fit is the dividend again. -/
  wrapped : a = -2 ^ (width - 1) → b = -1 → q = a

-- ========================================================== any width

variable {width : Nat} {limit a b : Int}

/-- A quotient is no larger than its dividend, and so fits where the dividend
does; only the least integer has no opposite. -/
theorem tdiv_bounds (hlow : -limit ≤ a) (hhigh : a < limit) (hb : b ≠ 0)
    (hfits : ¬(a = -limit ∧ b = -1)) : -limit ≤ a.tdiv b ∧ a.tdiv b < limit := by
  have hle : (a.tdiv b).natAbs ≤ a.natAbs := Int.natAbs_tdiv_le_natAbs a b
  by_cases hleast : a = -limit
  · by_cases hunit : b = 1
    · rw [hunit, Int.tdiv_one]
      exact ⟨hlow, hhigh⟩
    · have hhalf : (a.tdiv b).natAbs ≤ a.natAbs / 2 := by
        rw [Int.natAbs_tdiv]
        exact Nat.div_le_div_left (by omega) (by decide)
      omega
  · omega

/-- A turn is twice the way to the limit. -/
theorem two_pow_width (hwidth : 0 < width) : (2 : Int) ^ width = 2 * 2 ^ (width - 1) := by
  rw [← Int.pow_succ', Nat.sub_add_cancel hwidth]

/-- What fits the width stays as it is. -/
theorem bmod_width (hwidth : 0 < width) {n : Int} (hlow : -2 ^ (width - 1) ≤ n)
    (hhigh : n < 2 ^ (width - 1)) : n.bmod (2 ^ width) = n := by
  have hturn := two_pow_width hwidth
  apply Int.bmod_eq_of_le
  · push_cast
    omega
  · push_cast
    omega

/-- Dividing toward zero and wrapping what does not fit. -/
theorem divided_wrapped (hwidth : 0 < width) (hlow : -2 ^ (width - 1) ≤ a)
    (hhigh : a < 2 ^ (width - 1)) (hb : b ≠ 0) :
    Divided width a b ((a.tdiv b).bmod (2 ^ width)) (a.tmod b) where
  sum := by
    rw [← Int.bmod_add_bmod, Int.bmod_mul_bmod, Int.bmod_add_bmod, Int.tdiv_mul_add_tmod]
    exact bmod_width hwidth hlow hhigh
  sign := by
    rw [Int.sign_tmod]
    by_cases hdvd : b ∣ a
    · exact .inl (Int.tmod_eq_zero_of_dvd hdvd)
    · exact .inr (if_neg hdvd)
  smaller := by
    rw [Int.natAbs_tmod]
    exact Nat.mod_lt _ (Int.natAbs_pos.mpr hb)
  truncated := by
    intro hfits
    obtain ⟨hfrom, hto⟩ := tdiv_bounds hlow hhigh hb hfits
    exact bmod_width hwidth hfrom hto
  wrapped := by
    intro hleast hminus
    have hturn := two_pow_width hwidth
    rw [hminus, Int.tdiv_neg, Int.tdiv_one, Int.bmod_eq_iff (Nat.two_pow_pos width)]
    push_cast
    exact ⟨by omega, by omega, -1, by omega⟩

-- ======================================================= words of words

/-- The low one of two words, with its sign. -/
def lowWord (w : Int64) : Int32 := w.toInt32

/-- The high one of two words, with its sign. -/
def highWord (w : Int64) : Int32 := (w >>> 32).toInt32

/-- Two words in one. -/
def packed (low high : Int32) : Int64 :=
  ((high.toUInt32.toUInt64 <<< 32) ||| low.toUInt32.toUInt64).toInt64

/-- Neither word reaches into the half of the other. -/
theorem toBitVec_packed (low high : Int32) :
    (packed low high).toBitVec = high.toBitVec ++ low.toBitVec := by
  apply BitVec.eq_of_getLsbD_eq
  intro i hi
  show (high.toBitVec.setWidth 64 <<< 32 ||| low.toBitVec.setWidth 64).getLsbD i = _
  rw [BitVec.getLsbD_or, BitVec.getLsbD_shiftLeft, BitVec.getLsbD_setWidth, BitVec.getLsbD_setWidth,
    BitVec.getLsbD_append]
  by_cases hlow : i < 32
  · simp [hi, hlow]
  · have hhigh : i - 32 < 64 := by omega
    have hnone : low.toBitVec.getLsbD i = false := BitVec.getLsbD_of_ge _ _ (Nat.le_of_not_lt hlow)
    simp [hi, hlow, hhigh, hnone]

theorem lowWord_packed (low high : Int32) : lowWord (packed low high) = low := by
  rw [← Int32.toBitVec_inj, lowWord, Int64.toBitVec_toInt32, toBitVec_packed,
    BitVec.signExtend_eq_setWidth_of_le _ (by decide), BitVec.setWidth_append, dif_pos (by decide),
    BitVec.setWidth_eq]

theorem highWord_packed (low high : Int32) : highWord (packed low high) = high := by
  rw [← Int32.toBitVec_inj, highWord, Int64.toBitVec_toInt32, Int64.toBitVec_shiftRight,
    toBitVec_packed, BitVec.signExtend_eq_setWidth_of_le _ (by decide)]
  apply BitVec.eq_of_getLsbD_eq
  intro i hi
  have hdistance : ((32 : Int64).toBitVec.smod 64).toNat = 32 := by decide
  have hinside : 32 + i < 64 := Nat.add_lt_add_left hi 32
  have hword : ¬64 ≤ i := by omega
  have habove : ¬32 + i < 32 := by omega
  rw [BitVec.getLsbD_setWidth, BitVec.sshiftRight', hdistance, BitVec.getLsbD_sshiftRight,
    if_pos hinside, BitVec.getLsbD_append, if_neg habove, Nat.add_sub_cancel_left]
  simp [hi, hword]

-- ============================================================= services

/-- Unless the divisor is zero, the services divide. -/
theorem ldiv_eq_ok {a b : Int64} (hb : b ≠ 0) : ldiv a b = .ok (a / b) := if_neg hb

theorem lmod_eq_ok {a b : Int64} (hb : b ≠ 0) : lmod a b = .ok (a % b) := if_neg hb

theorem idivmod_eq_ok {a b : Int32} (hb : b ≠ 0) : idivmod a b = .ok (packed (a / b) (a % b)) :=
  if_neg hb

theorem divided_long {a b : Int64} (hb : b ≠ 0) :
    Divided 64 a.toInt b.toInt (a / b).toInt (a % b).toInt := by
  rw [Int64.toInt_div, Int64.toInt_mod]
  exact divided_wrapped (by decide) a.le_toInt a.toInt_lt fun h => hb (Int64.toInt_inj.mp h)

theorem divided_int {a b : Int32} (hb : b ≠ 0) :
    Divided 32 a.toInt b.toInt (a / b).toInt (a % b).toInt := by
  rw [Int32.toInt_div, Int32.toInt_mod]
  exact divided_wrapped (by decide) a.le_toInt a.toInt_lt fun h => hb (Int32.toInt_inj.mp h)

/-- The sum is the one that the services themselves compute. -/
theorem Divided.lmul_add {a b q r : Int64} (h : Divided 64 a.toInt b.toInt q.toInt r.toInt) :
    lmul q b + r = a := by
  rw [← Int64.toInt_inj, lmul, Int64.toInt_add, Int64.toInt_mul, Int.bmod_add_bmod]
  exact h.sum

/-- Division never fails but for a zero divisor, and divides: in 64 bits with
the two numbers apart, in 32 bits with the quotient in the low word and the
remainder in the high one. -/
theorem division_law :
    (∀ a b : Int64, b ≠ 0 → ∃ q r, ldiv a b = .ok q ∧ lmod a b = .ok r ∧ lmul q b + r = a
        ∧ Divided 64 a.toInt b.toInt q.toInt r.toInt)
      ∧ ∀ a b : Int32, b ≠ 0 → ∃ w, idivmod a b = .ok w
        ∧ Divided 32 a.toInt b.toInt (lowWord w).toInt (highWord w).toInt := by
  constructor
  · intro a b hb
    have hdivided := divided_long (a := a) hb
    exact ⟨_, _, ldiv_eq_ok hb, lmod_eq_ok hb, hdivided.lmul_add, hdivided⟩
  · intro a b hb
    refine ⟨_, idivmod_eq_ok hb, ?_⟩
    rw [lowWord_packed, highWord_packed]
    exact divided_int hb

/-- The quotient that wraps, and a negative one under a positive remainder. -/
theorem division_law_wrapped :
    (ldiv Int64.minValue (-1) = .ok Int64.minValue ∧ lmod Int64.minValue (-1) = .ok 0)
      ∧ ∃ w, idivmod 7 (-2) = .ok w ∧ (lowWord w).toInt = -3 ∧ (highWord w).toInt = 1 := by
  obtain ⟨hlong, hint⟩ := division_law
  obtain ⟨q, r, hq, hr, -, hdivided⟩ := hlong Int64.minValue (-1) (by decide)
  obtain ⟨w, hw, hpair⟩ := hint 7 (-2) (by decide)
  have hleast : q = Int64.minValue := Int64.toInt_inj.mp (hdivided.wrapped rfl rfl)
  have hzero : r = 0 := Int64.toInt_inj.mp (Int.natAbs_eq_zero.mp (Nat.lt_one_iff.mp hdivided.smaller))
  have hlow : (lowWord w).toInt = -3 := hpair.truncated (by decide)
  refine ⟨⟨hleast ▸ hq, hzero ▸ hr⟩, w, hw, hlow, ?_⟩
  have hsum : ((lowWord w).toInt * -2 + (highWord w).toInt).bmod (2 ^ 32) = 7 := hpair.sum
  have hsmaller : (highWord w).toInt.natAbs < 2 := hpair.smaller
  rw [hlow] at hsum
  obtain hnone | hsign := hpair.sign
  · rw [hnone] at hsum
    exact absurd hsum (by decide)
  · have hpositive : 0 < (highWord w).toInt := Int.sign_eq_one_iff_pos.mp hsign
    omega

end Crossing.Service
