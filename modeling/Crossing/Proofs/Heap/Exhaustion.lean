import Crossing.Proofs.Heap.Allocation

/-
Allocation as machine words compute it. Sizes are doubled, added and rounded
up, the new end of the heap is compared with its capacity, and if it lies
behind that, what remains is the capacity less the bytes in use: any of these
sums and differences may be no word. `serveWords` makes each of them with
the check that it is one.

The bytes in use never come to more than the capacity, or than the first
bytes, which no object gets (`AllocHistory.top_le`). So everything is a word
in a heap that has the first bytes, and requests are answered as `serve`
does. A heap smaller than that is made all the same; what remains of it is
less than nothing, and no request to it is answered.
-/
namespace Crossing

namespace Heap

-- =============================================================== sizes

namespace Request

/-- A text is a sequence in memory, which has fewer than 2^63 bytes. -/
def InMemory : Request → Prop
  | newString _ value => 2 * (value.toList.flatMap units).length < 2 ^ 63
  | _ => True

end Request

theorem ok_bind {ε α β : Type} (a : α) (f : α → Except ε β) : (.ok a >>= f) = f a := rfl

theorem addWord_of_lt {a b : Nat} (h : a + b < wordLimit) : addWord a b = .ok (a + b) := if_pos h

theorem bodyWord_eq {body : ObjectBody} (hsize : body.size < wordLimit) :
    bodyWord body = .ok body.size := by
  cases body with
  | plain => rfl
  | classOf superclass => rfl
  | text chars =>
      have hsum : 16 + 2 * chars.length < wordLimit := hsize
      have hdouble : chars.length + chars.length < wordLimit := by omega
      rw [bodyWord, addWord_of_lt hdouble, ok_bind, ← Nat.two_mul]
      exact addWord_of_lt hsum

/-- Clearing the low bits goes down to a multiple of the alignment. -/
theorem toNat_clearLow (n : UInt64) : (n &&& ~~~UInt64.ofNat (objectAlignment - 1)).toNat
    = n.toNat / objectAlignment * objectAlignment := by
  have hmask : (~~~UInt64.ofNat (objectAlignment - 1)).toBitVec = BitVec.allOnes 64 <<< 3 := by decide
  have hlt : n.toNat / 8 * 8 < 2 ^ 64 := Nat.lt_of_le_of_lt (Nat.div_mul_le_self _ _) n.toNat_lt
  rw [← UInt64.toNat_toBitVec, UInt64.toBitVec_and, hmask, ← BitVec.shiftLeft_ushiftRight,
    BitVec.toNat_shiftLeft, BitVec.toNat_ushiftRight, Nat.shiftRight_eq_div_pow, Nat.shiftLeft_eq]
  exact Nat.mod_eq_of_lt hlt

theorem roundedWord_eq {size : Nat} (hsize : size + objectAlignment < wordLimit) :
    roundedWord size = .ok (rounded size) := by
  have hlast : subWord (size + objectAlignment) 1 = .ok (size + objectAlignment - 1) :=
    if_pos (Nat.le_add_left 1 (size + 7))
  have hword : size + objectAlignment - 1 < 2 ^ 64 := Nat.lt_of_le_of_lt (Nat.sub_le _ 1) hsize
  rw [roundedWord, addWord_of_lt hsize, ok_bind, hlast, ok_bind, toNat_clearLow, UInt64.toNat_ofNat',
    Nat.mod_eq_of_lt hword]
  rfl

namespace Request

variable {r : Request}

theorem InMemory.size_lt (hmemory : r.InMemory) : r.object.body.size < 2 ^ 63 + 16 := by
  cases r with
  | newClass superclass => exact (by decide : 16 < 2 ^ 63 + 16)
  | newObject klass => exact (by decide : 8 < 2 ^ 63 + 16)
  | newString klass value =>
      have hbytes : 2 * (value.toList.flatMap units).length < 2 ^ 63 := hmemory
      show 16 + 2 * (value.toList.flatMap units).length < 2 ^ 63 + 16
      omega

/-- The size of a block can be computed. -/
theorem InMemory.sizeWord_eq (hmemory : r.InMemory) : r.sizeWord = .ok r.size := by
  have hlt := hmemory.size_lt
  have hbody : r.object.body.size < wordLimit := Nat.lt_trans hlt (by decide)
  have hround : r.object.body.size + objectAlignment < wordLimit :=
    Nat.lt_trans (Nat.add_lt_add_right hlt _) (by decide)
  rw [sizeWord, bodyWord_eq hbody, ok_bind, roundedWord_eq hround]
  rfl

end Request

-- ============================================================== answers

/-- A request is granted, or it is told how much is missing. -/
def Answered (answer : Except HeapError (Nat × Heap)) : Prop :=
  (∃ address h, answer = .ok (address, h))
    ∨ ∃ requested remaining, answer = .error (.exhausted requested remaining)

variable {h₀ h : Heap} {r : Request} {size : Nat}

theorem stop?_eq (hstop : h.top + size < wordLimit) :
    h.stop? size = if h.top + size ≤ h.capacity then some (h.top + size) else none := by
  rw [stop?, addWord_of_lt hstop]
  show (some (h.top + size)).filter (· ≤ h.capacity) = _
  rw [Option.filter_some]
  simp only [decide_eq_true_eq]

/-- What remains can be told unless more is in use than there is. -/
theorem exhausted_eq (h : Heap) (size : Nat) : h.exhausted size
    = if h.top ≤ h.capacity then .error (.exhausted size (h.capacity - h.top))
      else .error (.refused .subOverflow) := by
  rw [exhausted, subWord]
  split
  · rfl
  · rfl

theorem grant_eq (haddress : h.base + h.top < wordLimit) :
    h.grant r (h.top + r.size) = .ok (h.base + h.top, h.put r) := by
  have hupper : referenceOf r.upper.toNat = .ok r.upper.toNat := if_pos r.upper.toNat_lt
  rw [grant, addWord_of_lt haddress, hupper]
  rfl

/-- In machine words requests are answered as without them, if the bytes in
use lie far below the limit of words. -/
theorem serveWords_eq (hmemory : r.InMemory) (htop : h.base + h.top < 2 ^ 33) :
    h.serveWords r = h.serve r := by
  have hbody := hmemory.size_lt
  have hsize : r.size < r.object.body.size + 8 := (rounded_bounds _).2
  have hstop : h.top + r.size < wordLimit := by
    unfold wordLimit
    omega
  have haddress : h.base + h.top < wordLimit := Nat.lt_trans htop (by decide)
  have hword : r.sizeWord.mapError HeapError.refused = .ok r.size := by
    rw [hmemory.sizeWord_eq]
    rfl
  rw [serveWords, hword, ok_bind, stop?_eq hstop, serve_eq]
  by_cases hfits : h.top + r.size ≤ h.capacity
  · rw [if_pos hfits, if_pos hfits]
    exact grant_eq haddress
  · rw [if_neg hfits, if_neg hfits]
    exact exhausted_eq h r.size

theorem not_answered_refused (v : Violation) : ¬Answered (.error (.refused v)) := by
  intro hanswer
  rcases hanswer with ⟨_, _, heq⟩ | ⟨_, _, heq⟩
  · cases heq
  · cases heq

/-- An answer needs no more than that what is in use is there. -/
theorem answered_serve_iff : Answered (h.serve r) ↔ h.top ≤ h.capacity := by
  rw [serve_eq]
  by_cases hfits : h.top + r.size ≤ h.capacity
  · rw [if_pos hfits]
    exact iff_of_true (.inl ⟨_, _, rfl⟩) (Nat.le_trans (Nat.le_add_right _ _) hfits)
  · rw [if_neg hfits]
    by_cases hle : h.top ≤ h.capacity
    · rw [if_pos hle]
      exact iff_of_true (.inr ⟨_, _, rfl⟩) hle
    · rw [if_neg hle]
      exact iff_of_false (not_answered_refused _) hle

end Heap

open Heap

-- =========================================================== histories

namespace AllocHistory

variable {h₀ h : Heap} {grants : List Grant} (hist : AllocHistory h₀ grants h) (hfresh : h₀.Fresh)
include hist hfresh

/-- The bytes in use are never more than the capacity or the first bytes. -/
theorem top_le : h.top ≤ max objectAlignment h₀.capacity := by
  induction hist with
  | start =>
      rw [hfresh.top]
      exact Nat.le_max_left _ _
  | granted hist hserve _ =>
      obtain ⟨hfits, -, hput⟩ := serve_eq_ok hserve
      rw [(hist.laid hfresh).capacity] at hfits
      rw [hput]
      exact Nat.le_trans hfits (Nat.le_max_right _ _)
  | failed _ _ ih => exact ih

/-- The first bytes are always in use. -/
theorem le_top : objectAlignment ≤ h.top := by
  rw [(hist.laid hfresh).used]
  exact Nat.le_add_right _ _

/-- The bytes in use fit the heap if the first ones do. -/
theorem top_le_capacity_iff : h.top ≤ h.capacity ↔ objectAlignment ≤ h₀.capacity := by
  have htop := hist.top_le hfresh
  rw [(hist.laid hfresh).capacity]
  constructor
  · exact Nat.le_trans (hist.le_top hfresh)
  · intro hfirst
    rwa [Nat.max_eq_right hfirst] at htop

/-- Whatever has been asked of a new heap, and whatever is asked next, no
number but one is too large or too small for a machine word: what remains is
less than nothing in a heap without the first bytes. With them, every request
is answered; without them, none is. -/
theorem allocation_answered_iff {r : Request} (hmemory : r.InMemory) :
    h.serveWords r = h.serve r
      ∧ (Answered (h.serveWords r) ↔ objectAlignment ≤ h₀.capacity)
      ∧ (h₀.capacity < objectAlignment → h.serveWords r = .error (.refused .subOverflow)) := by
  have hlaid := hist.laid hfresh
  have hwords : h.serveWords r = h.serve r := by
    apply serveWords_eq hmemory
    have hlow := hfresh.low
    have htop : h.top ≤ max 8 h₀.capacity := hist.top_le hfresh
    rw [hlaid.base]
    omega
  rw [hwords, answered_serve_iff, hist.top_le_capacity_iff hfresh]
  refine ⟨rfl, Iff.rfl, fun hsmall => ?_⟩
  have hover : ¬h.top ≤ h.capacity := by
    rw [hist.top_le_capacity_iff hfresh]
    exact Nat.not_le_of_lt hsmall
  rw [serve_eq, if_neg fun hfits => hover (Nat.le_trans (Nat.le_add_right _ _) hfits), if_neg hover]

end AllocHistory

/-- A heap for a single class. -/
def threeUnits : Heap := { base := lowBase, capacity := 24 }

/-- With the class in it, nothing remains, and that is the answer. -/
theorem allocation_answered_full : ∃ h, AllocHistory threeUnits [⟨.newClass 0, 0x40000008⟩] h
    ∧ h.serveWords (.newString 0x40000008 "a") = .error (.exhausted 24 0)
    ∧ Answered (h.serveWords (.newString 0x40000008 "a")) := by
  have hmade : ofCapacity 24 = .ok threeUnits := rfl
  have hstart : AllocHistory threeUnits [] threeUnits := .start
  have hclass := hstart.put (.newClass 0) (by decide)
  have hmemory : (Request.newString 0x40000008 "a").InMemory := show 2 * 1 < 2 ^ 63 by decide
  obtain ⟨hwords, hanswered, -⟩ := hclass.allocation_answered_iff (ofCapacity_fresh hmade) hmemory
  refine ⟨_, hclass, ?_, hanswered.mpr (by decide)⟩
  rw [hwords]
  rfl

/-- A heap of four bytes is made, although it lacks the first ones, and the
room for a class cannot even be refused. -/
theorem not_always_answered : ∃ h₀, ofCapacity 4 = .ok h₀
    ∧ h₀.serveWords (.newClass 0) = .error (.refused .subOverflow)
    ∧ h₀.serve (.newClass 0) = .error (.refused .subOverflow)
    ∧ ¬Answered (h₀.serveWords (.newClass 0)) := by
  have hanswer : serveWords { base := lowBase, capacity := 4 } (.newClass 0)
      = .error (.refused .subOverflow) := rfl
  refine ⟨_, rfl, hanswer, rfl, ?_⟩
  rw [hanswer]
  exact not_answered_refused _

end Crossing
