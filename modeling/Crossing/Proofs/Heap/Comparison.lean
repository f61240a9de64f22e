import Crossing.Heap.Type
import Crossing.Proofs.Heap.Allocation

/-
Comparison of strings. What comes out is a number: the difference of the
first units that differ, or else of the lengths. Its sign is the order of
lists, unit by unit, in which what stops earlier comes first; that it is a
total order follows from there.

The number is computed in 32-bit integers (`compareInt32`), into which a
length is squeezed and in which a difference can overflow. With fewer than
2^31 units neither happens, and no heap has room for a string of more.
-/
namespace Crossing

namespace Heap

variable {as bs cs : List UInt16}

-- ============================================================ the order

/-- The sign of the number is the order of the strings. -/
theorem compareUnits_neg_iff : ∀ {as bs : List UInt16}, compareUnits as bs < 0 ↔ as < bs
  | [], [] => by simp [compareUnits]
  | [], b :: bs => by
      simp only [compareUnits, List.length_nil, List.length_cons, List.nil_lt_cons, iff_true]
      omega
  | a :: as, [] => by
      simp only [compareUnits, List.length_nil, List.length_cons, List.not_lt_nil, iff_false]
      omega
  | a :: as, b :: bs => by
      have hrest : compareUnits as bs < 0 ↔ as < bs := compareUnits_neg_iff
      rw [compareUnits, List.cons_lt_cons_iff]
      by_cases hab : a = b
      · simp [hab, hrest]
      · simp only [hab, if_false, false_and, or_false, UInt16.lt_iff_toNat_lt]
        omega

/-- Exchanged strings give the opposite number. -/
theorem compareUnits_swap : ∀ as bs : List UInt16, compareUnits bs as = -compareUnits as bs
  | [], [] => rfl
  | [], b :: bs => by simp [compareUnits]
  | a :: as, [] => by simp [compareUnits]
  | a :: as, b :: bs => by
      rw [compareUnits, compareUnits]
      by_cases hab : a = b
      · rw [if_pos hab.symm, if_pos hab, compareUnits_swap as bs]
      · rw [if_neg fun h => hab h.symm, if_neg hab, Int.neg_sub]

theorem compareUnits_pos_iff : 0 < compareUnits as bs ↔ bs < as := by
  rw [← compareUnits_neg_iff, compareUnits_swap as bs]
  omega

theorem compareUnits_eq_zero_iff : compareUnits as bs = 0 ↔ as = bs := by
  constructor
  · intro hzero
    have hle : ¬as < bs := by
      rw [← compareUnits_neg_iff]
      omega
    have hge : ¬bs < as := by
      rw [← compareUnits_pos_iff]
      omega
    exact List.le_antisymm hge hle
  · intro heq
    subst heq
    have hle : ¬compareUnits as as < 0 := fun h => List.lt_irrefl as (compareUnits_neg_iff.mp h)
    have hge : ¬0 < compareUnits as as := fun h => List.lt_irrefl as (compareUnits_pos_iff.mp h)
    omega

/-- Two comparisons of the same sign settle the third. -/
theorem compareUnits_trans (h : (compareUnits as bs).sign = (compareUnits bs cs).sign) :
    (compareUnits as cs).sign = (compareUnits as bs).sign := by
  rcases Int.lt_trichotomy (compareUnits as bs) 0 with hneg | hzero | hpos
  · rw [Int.sign_eq_neg_one_of_neg hneg] at h ⊢
    have hab : as < bs := compareUnits_neg_iff.mp hneg
    have hbc : bs < cs := compareUnits_neg_iff.mp (Int.sign_eq_neg_one_iff_neg.mp h.symm)
    exact Int.sign_eq_neg_one_of_neg (compareUnits_neg_iff.mpr (List.lt_trans hab hbc))
  · rw [h, compareUnits_eq_zero_iff.mp hzero]
  · rw [Int.sign_eq_one_of_pos hpos] at h ⊢
    have hba : bs < as := compareUnits_pos_iff.mp hpos
    have hcb : cs < bs := compareUnits_pos_iff.mp (Int.sign_eq_one_iff_pos.mp h.symm)
    exact Int.sign_eq_one_of_pos (compareUnits_pos_iff.mpr (List.lt_trans hcb hba))

-- ====================================================== 32-bit integers

theorem firstDifference?_cons (a b : UInt16) (as bs : List UInt16) :
    firstDifference? (a :: as) (b :: bs) = if a = b then firstDifference? as bs else some (a, b) := by
  by_cases hab : a = b
  · simp [firstDifference?, hab]
  · simp [firstDifference?, hab]

/-- What is subtracted, whatever the integers it is subtracted in. -/
theorem compareUnits_eq : ∀ as bs : List UInt16, compareUnits as bs
    = match firstDifference? as bs with
      | some (a, b) => (a.toNat : Int) - b.toNat
      | none => (as.length : Int) - bs.length
  | [], [] => rfl
  | [], b :: bs => rfl
  | a :: as, [] => rfl
  | a :: as, b :: bs => by
      rw [compareUnits, firstDifference?_cons]
      by_cases hab : a = b
      · rw [if_pos hab, if_pos hab, compareUnits_eq as bs]
        cases firstDifference? as bs with
        | some pair => rfl
        | none =>
            simp only [List.length_cons]
            omega
      · rw [if_neg hab, if_neg hab]

/-- Numbers below 2^31 can be subtracted in 32 bits. -/
theorem subInt32_ofNat {m n : Nat} (hm : m < 2 ^ 31) (hn : n < 2 ^ 31) :
    ∃ d, subInt32 (.ofNat m) (.ofNat n) = .ok d ∧ d.toInt = (m : Int) - n := by
  have hfits : -2 ^ 31 ≤ (m : Int) - n ∧ (m : Int) - n < 2 ^ 31 := by omega
  refine ⟨.ofNat m - .ofNat n, ?_, ?_⟩
  · rw [subInt32, Int32.toInt_ofNat_of_lt hm, Int32.toInt_ofNat_of_lt hn, if_pos hfits]
  · rw [Int32.toInt_sub, Int32.toInt_ofNat_of_lt hm, Int32.toInt_ofNat_of_lt hn]
    exact Int.bmod_eq_of_le (by omega) (by omega)

/-- With fewer than 2^31 units nothing overflows, and the number is the
same. -/
theorem compareInt32_eq_ok (has : as.length < 2 ^ 31) (hbs : bs.length < 2 ^ 31) :
    ∃ d, compareInt32 as bs = .ok d ∧ d.toInt = compareUnits as bs := by
  rw [compareInt32, compareUnits_eq]
  cases firstDifference? as bs with
  | some pair =>
      obtain ⟨a, b⟩ := pair
      have ha : a.toNat < 2 ^ 31 := Nat.lt_trans a.toNat_lt (by decide)
      have hb : b.toNat < 2 ^ 31 := Nat.lt_trans b.toNat_lt (by decide)
      exact subInt32_ofNat ha hb
  | none => exact subInt32_ofNat has hbs

-- ============================================================== strings

/-- An address that is not null, with a string of fewer than 2^31 units. -/
structure ShortString (h : Heap) (a : Nat) : Prop where
  nonnull : a ≠ 0
  short : (h.chars a).length < 2 ^ 31

/-- Comparing two strings, in 32-bit integers as well, gives a number. -/
structure Compares (h : Heap) (a b : Nat) (d : Int32) : Prop where
  answer : h.compareStrings a b = .ok d.toInt
  computed : compareInt32 (h.chars a) (h.chars b) = .ok d

variable {h : Heap} {a b c : Nat} {d d' e f : Int32}

theorem Compares.toInt_eq (hd : h.Compares a b d) : d.toInt = compareUnits (h.chars a) (h.chars b) := by
  have hanswer := hd.answer
  unfold compareStrings at hanswer
  split at hanswer
  · cases hanswer
  · exact (Except.ok.inj hanswer).symm

theorem ShortString.compares (ha : h.ShortString a) (hb : h.ShortString b) : ∃ d, h.Compares a b d := by
  obtain ⟨d, hcomputed, hd⟩ := compareInt32_eq_ok ha.short hb.short
  refine ⟨d, ?_, hcomputed⟩
  rw [compareStrings, if_neg hb.nonnull, hd]

/-- Comparison of strings is a total order: it gives a number for any two of
them, which is zero for equal ones only, and negative if the first comes
before the second; exchanged, they give the opposite number, and the signs
of two comparisons in a row carry over. -/
theorem comparison_total_order (h : Heap) :
    (∀ a b, h.ShortString a → h.ShortString b → ∃ d, h.Compares a b d
        ∧ (d.toInt = 0 ↔ h.chars a = h.chars b) ∧ (d.toInt < 0 ↔ h.chars a < h.chars b))
      ∧ (∀ a b d d', h.Compares a b d → h.Compares b a d' → d'.toInt = -d.toInt)
      ∧ ∀ a b c d e f, h.Compares a b d → h.Compares b c e → h.Compares a c f →
        (d.toInt.sign = e.toInt.sign → f.toInt.sign = d.toInt.sign)
          ∧ (d.toInt = 0 → f = e) ∧ (e.toInt = 0 → f = d) := by
  refine ⟨fun a b ha hb => ?_, fun a b d d' hd hd' => ?_, fun a b c d e f hd he hf => ⟨?_, ?_, ?_⟩⟩
  · obtain ⟨d, hd⟩ := ha.compares hb
    refine ⟨d, hd, ?_, ?_⟩
    · rw [hd.toInt_eq, compareUnits_eq_zero_iff]
    · rw [hd.toInt_eq, compareUnits_neg_iff]
  · rw [hd.toInt_eq, hd'.toInt_eq, compareUnits_swap]
  · rw [hd.toInt_eq, he.toInt_eq, hf.toInt_eq]
    exact compareUnits_trans
  · intro hzero
    rw [hd.toInt_eq, compareUnits_eq_zero_iff] at hzero
    rw [← Int32.toInt_inj, hf.toInt_eq, he.toInt_eq, hzero]
  · intro hzero
    rw [he.toInt_eq, compareUnits_eq_zero_iff] at hzero
    rw [← Int32.toInt_inj, hf.toInt_eq, hd.toInt_eq, hzero]

end Heap

/-- No heap has room for more. -/
theorem AllocHistory.shortString {h₀ h : Heap} {grants : List Grant} {a : Nat}
    (hist : AllocHistory h₀ grants h) (hfresh : h₀.Fresh) (ha : a ≠ 0) : h.ShortString a := by
  refine ⟨ha, ?_⟩
  unfold Heap.chars
  split
  · next chars hfound =>
      have hlaid := hist.laid hfresh
      have hlow := hfresh.low
      obtain ⟨g, hg, -, hobject⟩ := hlaid.objects.mp hfound
      have hinside : g.address + g.request.size ≤ h₀.base + h₀.capacity := (hlaid.placed g hg).2.2.2
      have hsize : g.request.object.body.size ≤ g.request.size := (Heap.rounded_bounds _).1
      rw [hobject, ObjectBody.size] at hsize
      omega
  · exact Nat.two_pow_pos 31

namespace Heap

/-- A class, and two strings that begin with the third. -/
def wordGrants : List Grant :=
  [⟨.newString 0x40000008 "app", 0x40000058⟩, ⟨.newString 0x40000008 "apply", 0x40000038⟩,
    ⟨.newString 0x40000008 "apple", 0x40000018⟩, ⟨.newClass 0, 0x40000008⟩]

/-- The heap they were granted in. -/
def fourteenUnits : Heap := { base := lowBase, capacity := 112 }

/-- The heap with them. -/
def wordHeap : Heap :=
  (((fourteenUnits.put (.newClass 0)).put (.newString 0x40000008 "apple")).put
    (.newString 0x40000008 "apply")).put (.newString 0x40000008 "app")

theorem wordHeap_history : AllocHistory fourteenUnits wordGrants wordHeap := by
  have hstart : AllocHistory fourteenUnits [] fourteenUnits := .start
  have hclass := hstart.put (.newClass 0) (by decide)
  have happle := hclass.put (.newString 0x40000008 "apple") (by decide)
  have happly := happle.put (.newString 0x40000008 "apply") (by decide)
  exact happly.put (.newString 0x40000008 "app") (by decide)

/-- Two differences of unlike kind carry over to a third: of lengths, and of
units. -/
theorem comparison_total_order_words : ∃ d e f,
    wordHeap.Compares 0x40000058 0x40000018 d ∧ wordHeap.Compares 0x40000018 0x40000038 e
      ∧ wordHeap.Compares 0x40000058 0x40000038 f
      ∧ d.toInt = -2 ∧ e.toInt = -20 ∧ f.toInt.sign = -1 := by
  have hmade : ofCapacity 112 = .ok fourteenUnits := rfl
  have hshort (a : Nat) (ha : a ≠ 0) : wordHeap.ShortString a :=
    wordHeap_history.shortString (ofCapacity_fresh hmade) ha
  have happ := hshort 0x40000058 (by decide)
  have happle := hshort 0x40000018 (by decide)
  have happly := hshort 0x40000038 (by decide)
  obtain ⟨hanswers, -, htrans⟩ := comparison_total_order wordHeap
  obtain ⟨d, hd, -⟩ := hanswers _ _ happ happle
  obtain ⟨e, he, -⟩ := hanswers _ _ happle happly
  obtain ⟨f, hf, -⟩ := hanswers _ _ happ happly
  have hlengths : d.toInt = -2 := hd.toInt_eq.trans (by decide)
  have hunits : e.toInt = -20 := he.toInt_eq.trans (by decide)
  refine ⟨d, e, f, hd, he, hf, hlengths, hunits, ?_⟩
  obtain ⟨hcarries, -⟩ := htrans _ _ _ d e f hd he hf
  rw [hcarries (by rw [hlengths, hunits]; rfl), hlengths]
  rfl

end Heap

end Crossing
