import Crossing.Heap.Request
import Mathlib.Data.List.Basic

/-
Histories of a heap. A heap is asked for classes, objects and strings, one
after the other; each request is granted at an address or fails, and one
that fails leaves nothing behind.

`Laid` is what every history keeps to: the blocks that were granted lie one
behind the other, the latest one last, and end where the heap is used up to.
That no two of them overlap, and that what was put into one is still found
there, follows from this order alone.
-/
namespace Crossing

namespace Heap

-- ============================================================ rounding

theorem dvd_rounded (size : Nat) : objectAlignment ∣ rounded size := Nat.dvd_mul_left _ _

/-- A size is rounded up, and by less than a unit. -/
theorem rounded_bounds (size : Nat) : size ≤ rounded size ∧ rounded size < size + objectAlignment := by
  unfold rounded objectAlignment
  omega

theorem eight_le_size (r : Request) : 8 ≤ r.size := by
  have hbody : 8 ≤ r.object.body.size := by
    cases r with
    | newClass superclass => exact Nat.le_add_right 8 8
    | newObject klass => exact Nat.le_refl 8
    | newString klass value => exact Nat.le_add_right_of_le (Nat.le_add_right 8 8)
  exact Nat.le_trans hbody (rounded_bounds _).1

-- -------------------------------------------------------------- answers

/-- The heap after a request that was granted. -/
def put (h : Heap) (r : Request) : Heap :=
  { h with top := h.top + r.size, objects := h.objects ++ [(h.base + h.top, r.object)] }

/-- A request is granted exactly if its block fits behind the others. -/
theorem serve_eq (h : Heap) (r : Request) :
    h.serve r = if h.top + r.size ≤ h.capacity then .ok (h.base + h.top, h.put r)
      else if h.top ≤ h.capacity then .error (.exhausted r.size (h.capacity - h.top))
      else .error (.refused .subOverflow) := by
  have halloc : h.serve r = h.alloc r.object := by
    cases r <;> rfl
  rw [halloc, alloc, subWord]
  by_cases hfits : h.top + rounded r.object.body.size ≤ h.capacity
  · rw [if_pos hfits]
    exact (if_pos hfits).symm
  · rw [if_neg hfits]
    refine Eq.trans ?_ (if_neg hfits).symm
    split
    · next heq =>
        split at heq
        · next htop =>
            cases heq
            rw [if_pos htop]
            rfl
        · cases heq
    · next heq =>
        split at heq
        · cases heq
        · next htop =>
            cases heq
            rw [if_neg htop]

theorem serve_eq_ok {h h' : Heap} {r : Request} {address : Nat} (hserve : h.serve r = .ok (address, h')) :
    h.top + r.size ≤ h.capacity ∧ address = h.base + h.top ∧ h' = h.put r := by
  rw [serve_eq] at hserve
  split at hserve
  · next hfits =>
      cases hserve
      exact ⟨hfits, rfl, rfl⟩
  · split at hserve
    · cases hserve
    · cases hserve

/-- Objects are found behind the ones there were. -/
theorem object?_put (h : Heap) (r : Request) (a : Nat) :
    (h.put r).object? a
      = (h.object? a).or (if a = h.base + h.top then some r.object else none) := by
  unfold object? put
  rw [List.lookup_append, List.lookup_cons, List.lookup_nil]
  by_cases ha : a = h.base + h.top
  · rw [ha, beq_self_eq_true, if_pos rfl]
  · rw [beq_false_of_ne ha, if_neg ha]

-- =========================================================== new heaps

/-- A heap as it was made, wherever the system has put it: at a multiple of
the alignment, wholly below 4 GiB, and without objects. -/
structure Fresh (h : Heap) : Prop where
  aligned : objectAlignment ∣ h.base
  low : h.base + h.capacity < 2 ^ 32
  top : h.top = objectAlignment
  empty : h.objects = []

theorem ofCapacity_fresh {capacity : Nat} {h : Heap} (hmade : ofCapacity capacity = .ok h) : h.Fresh := by
  unfold ofCapacity at hmade
  split at hmade
  · next hroom =>
      cases hmade
      have hlow : lowBase + capacity < 2 ^ 32 := by
        have hle := hroom.2
        unfold lowRoom at hle
        unfold lowBase
        omega
      exact ⟨show objectAlignment ∣ lowBase by decide, hlow, rfl, rfl⟩
  · cases hmade

end Heap

open Heap

-- =========================================================== histories

/-- A request that was granted, and where. -/
structure Grant where
  request : Request
  address : Nat

namespace Grant

/-- The address behind its block. -/
def stop (g : Grant) : Nat := g.address + g.request.size

/-- Its block has this address in it. -/
def Covers (g : Grant) (a : Nat) : Prop := g.address ≤ a ∧ a < g.stop

end Grant

/-- What has happened to a heap: the requests granted so far, the latest one
first. -/
inductive AllocHistory (h₀ : Heap) : List Grant → Heap → Prop where
  | start : AllocHistory h₀ [] h₀
  | granted {grants : List Grant} {h h' : Heap} {request : Request} {address : Nat} :
      AllocHistory h₀ grants h → h.serve request = .ok (address, h') →
      AllocHistory h₀ (⟨request, address⟩ :: grants) h'
  | failed {grants : List Grant} {h : Heap} {request : Request} {e : HeapError} :
      AllocHistory h₀ grants h → h.serve request = .error e → AllocHistory h₀ grants h

/-- Bytes of some blocks together. -/
def occupied : List Grant → Nat
  | [] => 0
  | g :: grants => occupied grants + g.request.size

/-- The blocks lie one behind the other, up to the top of the heap. -/
structure Heap.Laid (h₀ : Heap) (grants : List Grant) (h : Heap) : Prop where
  base : h.base = h₀.base
  capacity : h.capacity = h₀.capacity
  used : h.top = objectAlignment + occupied grants
  aligned : objectAlignment ∣ h.top
  placed : ∀ g ∈ grants, objectAlignment ∣ g.address ∧ h₀.base < g.address
    ∧ g.stop ≤ h₀.base + h.top ∧ g.stop ≤ h₀.base + h₀.capacity
  apart : grants.Pairwise fun later earlier => earlier.stop ≤ later.address
  objects : ∀ {a o}, h.object? a = some o ↔ ∃ g ∈ grants, g.address = a ∧ g.request.object = o

namespace Heap

variable {h₀ h h' : Heap} {grants : List Grant} {request : Request} {address : Nat} {g g' : Grant}

theorem Fresh.laid (hfresh : h₀.Fresh) : h₀.Laid [] h₀ where
  base := rfl
  capacity := rfl
  used := hfresh.top
  aligned := hfresh.top ▸ Nat.dvd_refl _
  placed := fun g hg => nomatch hg
  apart := .nil
  objects := by
    intro a o
    rw [object?, hfresh.empty]
    constructor
    · intro hfound
      cases hfound
    · rintro ⟨g, hg, -⟩
      cases hg

/-- A block that is granted is put behind all others. -/
theorem Laid.granted (hlaid : h₀.Laid grants h) (hfresh : h₀.Fresh)
    (hserve : h.serve request = .ok (address, h')) : h₀.Laid (⟨request, address⟩ :: grants) h' := by
  obtain ⟨hfits, haddress, hput⟩ := serve_eq_ok hserve
  have hbase := hlaid.base
  have hcapacity := hlaid.capacity
  have htop : h'.top = h.top + request.size := by
    rw [hput]
    rfl
  have hbefore : ∀ g ∈ grants, g.stop ≤ address := by
    intro g hg
    rw [haddress, hbase]
    exact (hlaid.placed g hg).2.2.1
  refine ⟨by rw [hput]; exact hbase, by rw [hput]; exact hcapacity, ?_, ?_, ?_, ?_, ?_⟩
  · rw [htop, hlaid.used, Nat.add_assoc]
    rfl
  · rw [htop]
    exact Nat.dvd_add hlaid.aligned (dvd_rounded _)
  · intro g hg
    rcases List.mem_cons.mp hg with hnew | hold
    · rw [hnew]
      have hpositive : 0 < h.top := by
        rw [hlaid.used]
        exact Nat.add_pos_left (by decide) _
      refine ⟨?_, ?_, ?_, ?_⟩
      · rw [haddress, hbase]
        exact Nat.dvd_add hfresh.aligned hlaid.aligned
      · show h₀.base < address
        omega
      · show address + request.size ≤ h₀.base + h'.top
        omega
      · show address + request.size ≤ h₀.base + h₀.capacity
        omega
    · obtain ⟨hdvd, habove, hbelow, hinside⟩ := hlaid.placed g hold
      exact ⟨hdvd, habove, by omega, hinside⟩
  · exact List.pairwise_cons.mpr ⟨hbefore, hlaid.apart⟩
  · intro a o
    have hnone : h.object? address = none := by
      cases hfound : h.object? address with
      | none => rfl
      | some o =>
          obtain ⟨g, hg, hat, -⟩ := hlaid.objects.mp hfound
          have hstop : g.address + g.request.size ≤ address := hbefore g hg
          have hsize := eight_le_size g.request
          omega
    rw [hput, object?_put, ← haddress]
    by_cases ha : a = address
    · rw [ha, hnone, if_pos rfl, Option.none_or]
      constructor
      · intro ho
        exact ⟨_, List.mem_cons_self, rfl, Option.some.inj ho⟩
      · rintro ⟨g, hg, hat, ho⟩
        rcases List.mem_cons.mp hg with hnew | hold
        · rw [← ho, hnew]
        · have hfound := hlaid.objects.mpr ⟨g, hold, hat, rfl⟩
          rw [hnone] at hfound
          cases hfound
    · rw [if_neg ha, Option.or_none, hlaid.objects]
      constructor
      · rintro ⟨g, hg, hat, ho⟩
        exact ⟨g, List.mem_cons_of_mem _ hg, hat, ho⟩
      · rintro ⟨g, hg, hat, ho⟩
        rcases List.mem_cons.mp hg with hnew | hold
        · rw [hnew] at hat
          exact absurd hat.symm ha
        · exact ⟨g, hold, hat, ho⟩

/-- Blocks of different grants share no address. -/
theorem disjoint_of_stop_le (hle : g'.stop ≤ g.address) (a : Nat) : ¬ (g.Covers a ∧ g'.Covers a) := by
  rintro ⟨⟨hfrom, -⟩, ⟨-, hto⟩⟩
  omega

end Heap

namespace AllocHistory

variable {h₀ h : Heap} {grants : List Grant} (hist : AllocHistory h₀ grants h)
include hist

/-- A request whose block fits is the next one. -/
theorem put (request : Request) (hfits : h.top + request.size ≤ h.capacity) :
    AllocHistory h₀ (⟨request, h.base + h.top⟩ :: grants) (h.put request) :=
  hist.granted (by rw [serve_eq, if_pos hfits])

theorem laid (hfresh : h₀.Fresh) : h₀.Laid grants h := by
  induction hist with
  | start => exact hfresh.laid
  | granted _ hserve ih => exact ih.granted hfresh hserve
  | failed _ _ ih => exact ih

end AllocHistory

end Crossing
