import Crossing.Heap.Type
import Crossing.Proofs.Heap.Image
import Crossing.Proofs.Heap.Text

/-
Blocks of a heap over time. Whatever is asked of a new heap, in whatever
order and whether granted or not, no two objects share a byte, none starts
where the heap does or reaches over its end, and each of them stays what it
was when it was put there: in the list of objects, and in memory, where
nothing but the order of the blocks keeps one object from being written over
another.
-/
namespace Crossing

open Heap

/-- What is true of a heap, and of the memory it lies in, after some
grants. -/
structure Heap.Intact (h₀ h : Heap) (grants : List Grant) (image : Image) : Prop where
  /-- A block starts at a multiple of eight behind the start of the heap,
  and ends inside the heap. -/
  placed : ∀ g ∈ grants, 8 ∣ g.address ∧ h₀.base < g.address ∧ g.stop ≤ h₀.base + h₀.capacity
  /-- So its address is a reference, and not the null one. -/
  reference : ∀ g ∈ grants, referenceOf g.address = .ok g.address ∧ g.address ≠ 0
  /-- No two blocks share an address. -/
  apart : grants.Pairwise fun g g' => ∀ a, ¬ (g.Covers a ∧ g'.Covers a)
  /-- The objects are those that were asked for, as they were then. -/
  objects : ∀ {a o}, h.object? a = some o ↔ ∃ g ∈ grants, g.address = a ∧ g.request.object = o
  memory : ∀ g ∈ grants, image.Shows g.address g.request.object
  /-- A string has the units of the text it was made from, which spell it. -/
  text : ∀ {g klass value}, g ∈ grants → g.request = .newString klass value →
    h.chars g.address = value.toList.flatMap units ∧ image.chars g.address = h.chars g.address
      ∧ ofUnits? (h.chars g.address) = some value.toList
  /-- All blocks together, and the first bytes of the heap, are in use. -/
  used : h.top = 8 + occupied grants
  /-- The next request is granted behind all others if it fits there. If not,
  the answer tells the size of its block and what remains; with less
  capacity than the first bytes take, nothing can be said to remain. -/
  answers : ∀ r : Request, h.serve r =
    if h.top + r.size ≤ h₀.capacity then .ok (h₀.base + h.top, h.put r)
    else if h.top ≤ h₀.capacity then .error (.exhausted r.size (h₀.capacity - h.top))
    else .error (.refused .subOverflow)

namespace Heap

variable {h₀ h : Heap} {grants : List Grant} {g : Grant}

/-- Objects that were asked for have numbers that fit their fields. -/
theorem Laid.shows (hlaid : h₀.Laid grants h) (hfresh : h₀.Fresh) (image : Image) (hg : g ∈ grants) :
    (image.after grants).Shows g.address g.request.object := by
  have hinside := (hlaid.placed g hg).2.2.2
  have hlow := hfresh.low
  apply (image.after_holds hlaid.apart g hg).shows
  · cases g.request with
    | newClass superclass => exact Nat.two_pow_pos 32
    | newObject klass => exact klass.toNat_lt
    | newString klass value => exact klass.toNat_lt
  · intro superclass hbody
    cases hrequest : g.request with
    | newClass superclass' =>
        rw [hrequest] at hbody
        cases hbody
        exact superclass'.toNat_lt
    | newObject klass => rw [hrequest] at hbody; cases hbody
    | newString klass value => rw [hrequest] at hbody; cases hbody
  · -- a string with more units than its count can hold would not fit the heap
    intro chars hbody
    have hsize : g.request.object.body.size ≤ g.request.size := (rounded_bounds _).1
    have hstop : g.stop = g.address + g.request.size := rfl
    rw [hbody, ObjectBody.size] at hsize
    omega

theorem Laid.text (hlaid : h₀.Laid grants h) {klass : HeapRef} {value : String} (hg : g ∈ grants)
    (hrequest : g.request = .newString klass value) :
    h.chars g.address = value.toList.flatMap units := by
  have hfound : h.object? g.address = some g.request.object := hlaid.objects.mpr ⟨g, hg, rfl, rfl⟩
  rw [Heap.chars, hfound, hrequest]
  rfl

end Heap

/-- Allocations never overlap, keep every object as it was made, and fail
only for want of room, telling how much there is. -/
theorem AllocHistory.blocks_intact {h₀ h : Heap} {grants : List Grant}
    (hist : AllocHistory h₀ grants h) (hfresh : h₀.Fresh) (image : Image) :
    h₀.Intact h grants (image.after grants) := by
  have hlaid := hist.laid hfresh
  refine ⟨?_, ?_, ?_, hlaid.objects, fun g hg => hlaid.shows hfresh image hg, ?_, hlaid.used, ?_⟩
  · intro g hg
    obtain ⟨hdvd, habove, -, hinside⟩ := hlaid.placed g hg
    exact ⟨hdvd, habove, hinside⟩
  · intro g hg
    obtain ⟨-, habove, -, hinside⟩ := hlaid.placed g hg
    have hlow := hfresh.low
    have hstop : g.stop = g.address + g.request.size := rfl
    exact ⟨if_pos (by omega), by omega⟩
  · exact hlaid.apart.imp fun hbehind a => disjoint_of_stop_le hbehind a
  · intro g klass value hg hrequest
    have htext := hlaid.text hg hrequest
    have hbody : g.request.object.body = .text (h.chars g.address) := by
      rw [htext, hrequest]
      rfl
    refine ⟨htext, (hlaid.shows hfresh image hg).chars hbody, ?_⟩
    rw [htext]
    exact ofUnits?_flatMap _
  · intro r
    rw [serve_eq, hlaid.base, hlaid.capacity]

/-- A heap of seven units. -/
def sevenUnits : Heap := { base := lowBase, capacity := 56 }

/-- A class, a string of three units and an object of the class. -/
def sevenGrants : List Grant :=
  [⟨.newObject 0x40000008, 0x40000030⟩, ⟨.newString 0x40000008 "a😀", 0x40000018⟩,
    ⟨.newClass 0, 0x40000008⟩]

theorem sevenGrants_history : ∃ h, AllocHistory sevenUnits sevenGrants h ∧ h.top = 56 := by
  have hstart : AllocHistory sevenUnits [] sevenUnits := .start
  have hclass := hstart.put (.newClass 0) (by decide)
  have hstring := hclass.put (.newString 0x40000008 "a😀") (by decide)
  have hobject := hstring.put (.newObject 0x40000008) (by decide)
  exact ⟨_, hobject, rfl⟩

/-- Memory that is still empty. -/
def emptyImage : Image := fun _ => 0

/-- When the seven units are used up, the string is still what it was made
from, in memory as well, and the next class is refused. -/
theorem blocks_intact_full : ∃ h, AllocHistory sevenUnits sevenGrants h
    ∧ (emptyImage.after sevenGrants).chars 0x40000018 = [0x61, 0xD83D, 0xDE00]
    ∧ ofUnits? (h.chars 0x40000018) = some ['a', '😀']
    ∧ h.serve (.newClass 0x40000008) = .error (.exhausted 16 0) := by
  have hmade : ofCapacity 56 = .ok sevenUnits := rfl
  obtain ⟨h, hist, htop⟩ := sevenGrants_history
  have hintact := hist.blocks_intact (ofCapacity_fresh hmade) emptyImage
  obtain ⟨hchars, hmemory, hspelled⟩ :=
    hintact.text (g := ⟨.newString 0x40000008 "a😀", 0x40000018⟩) (.tail _ (.head _)) rfl
  refine ⟨h, hist, ?_, hspelled, ?_⟩
  · exact hmemory.trans hchars
  · rw [hintact.answers, htop]
    rfl

end Crossing
