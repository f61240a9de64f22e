import Crossing.Heap.Marking
import Crossing.Proofs.Heap.Allocation
import Mathlib.Data.Finset.Card

/-
What marking remembers. An object may be marked any number of times, along
any of five routes, while a phase is going on or not; the end of a phase has
to clear each of them and counts it once.

`Remembers` is what every operation keeps to: the objects that are marked
are those on the stack, each once. It carries over a single mark because the
stack grows exactly when the bit was clear before, and over the end of a
phase because the stack alone says which bits to clear.
-/
namespace Crossing

-- ============================================================== objects

namespace HeapObject

variable {o o' : HeapObject} {i : Nat}

/-- A bit of the lock word. -/
def lockBit (o : HeapObject) (i : Nat) : Bool := o.lockWord.toBitVec.getLsbD i

theorem markBitMask_eq :
    ObjectHeader.markBitMask.toBitVec = BitVec.twoPow 32 ObjectHeader.markBitShift := rfl

/-- The mask has the one bit. -/
theorem markBitMask_bit :
    ObjectHeader.markBitMask.toBitVec.getLsbD i = decide (i = ObjectHeader.markBitShift) := by
  rw [markBitMask_eq, BitVec.getLsbD_twoPow, decide_eq_true (by decide : ObjectHeader.markBitShift < 32),
    Bool.true_and]
  exact decide_eq_decide.mpr eq_comm

theorem lockBit_setMark :
    o.setMark.lockBit i = (o.lockBit i || decide (i = ObjectHeader.markBitShift)) := by
  rw [lockBit, setMark, UInt32.toBitVec_or, BitVec.getLsbD_or, markBitMask_bit]
  rfl

theorem lockBit_clearMark :
    o.clearMark.lockBit i = (o.lockBit i && !decide (i = ObjectHeader.markBitShift)) := by
  rw [lockBit, clearMark, UInt32.toBitVec_and, UInt32.toBitVec_not, BitVec.getLsbD_and,
    BitVec.getLsbD_not, markBitMask_bit]
  by_cases hi : i < 32
  · rw [decide_eq_true hi, Bool.true_and]
    rfl
  · have hnone : o.lockWord.toBitVec.getLsbD i = false := BitVec.getLsbD_of_ge _ _ (Nat.le_of_not_lt hi)
    rw [lockBit, hnone, Bool.false_and, Bool.false_and]

/-- An object is marked if this bit of its lock word is set. -/
theorem isMarked_eq : o.isMarked = o.lockBit ObjectHeader.markBitShift := by
  have hword : (o.lockWord &&& ObjectHeader.markBitMask).toBitVec
      = if o.lockBit ObjectHeader.markBitShift then BitVec.twoPow 32 ObjectHeader.markBitShift
        else 0#32 := by
    rw [UInt32.toBitVec_and, markBitMask_eq, BitVec.and_twoPow]
    rfl
  rw [Bool.eq_iff_iff, isMarked, decide_eq_true_iff, ne_eq, ← UInt32.toBitVec_inj, hword]
  cases o.lockBit ObjectHeader.markBitShift with
  | true => decide
  | false => decide

theorem isMarked_setMark : o.setMark.isMarked = true := by
  rw [isMarked_eq, lockBit_setMark, decide_eq_true rfl, Bool.or_true]

theorem isMarked_clearMark : o.clearMark.isMarked = false := by
  rw [isMarked_eq, lockBit_clearMark, decide_eq_true rfl, Bool.not_true, Bool.and_false]

theorem clearMark_clearMark : o.clearMark.clearMark = o.clearMark := by
  rw [clearMark, clearMark, UInt32.and_assoc, UInt32.and_self]

/-- Two objects that differ in the mark bit at most. -/
structure Alike (o o' : HeapObject) : Prop where
  klass : o'.klass = o.klass
  body : o'.body = o.body
  bits : ∀ i, i ≠ ObjectHeader.markBitShift → o'.lockBit i = o.lockBit i

end HeapObject

-- ================================================================ heaps

namespace Heap

variable {h h' : Heap} {a b : Nat} {f : HeapObject → HeapObject}

/-- Whether there is an object at an address that is marked. -/
def marked (h : Heap) (a : Nat) : Bool := (h.object? a).any (·.isMarked)

/-- Two heaps whose objects differ in mark bits at most. -/
def Alike (h h' : Heap) : Prop := ∀ a, Option.Rel HeapObject.Alike (h.object? a) (h'.object? a)

theorem lookup_map_values {α β : Type} (f : Nat → α → β) (l : List (Nat × α)) :
    (l.map fun p => (p.1, f p.1 p.2)).lookup a = (l.lookup a).map (f a) := by
  induction l with
  | nil => rfl
  | cons p rest ih =>
      rw [List.map_cons, List.lookup_cons, List.lookup_cons]
      by_cases hhere : a = p.1
      · rw [← hhere, beq_self_eq_true]
        rfl
      · rw [beq_false_of_ne hhere]
        exact ih

theorem object?_modify : (h.modify a f).object? b = if b = a then (h.object? b).map f else h.object? b := by
  have hpairs : (fun p : Nat × HeapObject => if p.1 = a then (p.1, f p.2) else p)
      = fun p => (p.1, if p.1 = a then f p.2 else p.2) := by
    funext p
    split
    · rfl
    · rfl
  rw [object?, modify, hpairs, lookup_map_values fun k o => if k = a then f o else o]
  by_cases hb : b = a
  · simp only [if_pos hb]
    rfl
  · simp only [if_neg hb, Option.map_id']
    rfl

/-- The objects at some addresses are cleared. -/
theorem object?_clear (addresses : List Nat) (h : Heap) (b : Nat) :
    (addresses.foldl (fun h a => h.modify a (·.clearMark)) h).object? b
      = (h.object? b).map fun o => if b ∈ addresses then o.clearMark else o := by
  induction addresses generalizing h with
  | nil => simp
  | cons a rest ih =>
      rw [List.foldl_cons, ih, object?_modify]
      by_cases hb : b = a
      · rw [if_pos hb, Option.map_map]
        congr 1
        funext o
        rw [if_pos (hb ▸ List.mem_cons_self)]
        -- `a` may come again behind itself
        show (if b ∈ rest then o.clearMark.clearMark else o.clearMark) = _
        rw [HeapObject.clearMark_clearMark, ite_self]
      · rw [if_neg hb]
        simp only [List.mem_cons, hb, false_or]

theorem Alike.of_map {f : Nat → HeapObject → HeapObject}
    (halike : ∀ (a : Nat) (o : HeapObject), o.Alike (f a o))
    (hmap : ∀ a, h'.object? a = (h.object? a).map (f a)) : h.Alike h' := by
  intro a
  rw [hmap]
  cases h.object? a with
  | none => exact .none
  | some o => exact .some (halike a o)

end Heap

-- ============================================================== routes

/-- The ways to have an object marked: handed over as it is, or in a
register; as the class that declares a method; as what a field of an object
leads to; as what a root slot leads to. -/
inductive MarkRoute where
  | object (address : Nat)
  | register (n address : Nat)
  | declaring (method : Option Method)
  | field (holder offset : Nat)
  | root (slot : HeapRef)

/-- What is done to a heap with its collector. -/
inductive MarkOp where
  | mark (route : MarkRoute)
  | start
  | finish

/-- What a route leads to. -/
def MarkRoute.target (m : MarkedHeap) : MarkRoute → Nat
  | object address => address
  | register _ address => address
  | declaring none => 0
  | declaring (some method) => method.declaringClass.toNat
  | field holder offset => (m.readField holder offset).1
  | root slot => (m.readRoot slot).1

namespace MarkedHeap

variable {m m' m₀ : MarkedHeap} {a b n : Nat} {remembered : Finset Nat} {route : MarkRoute} {op : MarkOp}

/-- Marks along a route. -/
def follow (m : MarkedHeap) : MarkRoute → Except Violation MarkedHeap
  | .object address => .ok (m.mark address)
  | .register n address => m.markFrom n address
  | .declaring method => .ok (m.markDeclaring method)
  | .field holder offset => .ok (m.readField holder offset).2
  | .root slot => .ok (m.readRoot slot).2

def perform (m : MarkedHeap) : MarkOp → Except Violation MarkedHeap
  | .mark route => m.follow route
  | .start => m.start
  | .finish => m.finish.map (·.2)

/-- There is an object at an address, which is not null. -/
def Live (m : MarkedHeap) (a : Nat) : Prop := a ≠ 0 ∧ (m.heap.object? a).isSome = true

instance : Decidable (m.Live a) := inferInstanceAs (Decidable (_ ∧ _))

/-- The objects marked since the last phase ended, after one more operation:
no object twice, and null never. -/
def since (m : MarkedHeap) (remembered : Finset Nat) : MarkOp → Finset Nat
  | .mark route => if m.Live (route.target m) then insert (route.target m) remembered else remembered
  | .start => remembered
  | .finish => ∅

-- ------------------------------------------------------------ operations

/-- All routes end in the same place; the routines of the registers count
their calls on the way. -/
theorem follow_mark (hok : m.follow route = .ok m') :
    ∃ calls, m' = { m with calls }.mark (route.target m) := by
  cases route with
  | object address => exact ⟨m.calls, (Except.ok.inj hok).symm⟩
  | register n address =>
      simp only [follow, markFrom] at hok
      split at hok
      · exact ⟨_, (Except.ok.inj hok).symm⟩
      · cases hok
  | declaring method =>
      cases method with
      | none => exact ⟨m.calls, (Except.ok.inj hok).symm⟩
      | some method => exact ⟨m.calls, (Except.ok.inj hok).symm⟩
  | field holder offset => exact ⟨m.calls, (Except.ok.inj hok).symm⟩
  | root slot => exact ⟨m.calls, (Except.ok.inj hok).symm⟩

theorem start_eq (m : MarkedHeap) : m.start
    = if m.collector.marking then .error .alreadyMarking
      else .ok { m with collector := { m.collector with marking := true } } := by
  rw [start, Collector.admits]
  cases m.collector.marking with
  | true => rfl
  | false => rfl

/-- The end of a phase. -/
def swept (m : MarkedHeap) : MarkedHeap :=
  { m with
    heap := m.stack.foldl (fun h a => h.modify a (·.clearMark)) m.heap
    collector := { m.collector with marking := false }.book m.stack.length
    stack := [] }

theorem finish_eq (m : MarkedHeap) :
    m.finish = if m.collector.marking then .ok (m.stack.length, m.swept) else .error .notMarking := by
  rw [finish, Collector.admits]
  cases m.collector.marking with
  | true => rfl
  | false => rfl

theorem mark_null : m.mark 0 = m := if_pos rfl

theorem mark_eq (ha : a ≠ 0) : m.mark a
    = { m with
        heap := m.heap.modify a (·.setMark)
        stack := if (m.heap.object? a).any (!·.isMarked) then m.stack ++ [a] else m.stack } := by
  rw [mark, if_neg ha, setMarkBit]
  cases (m.heap.object? a).any (!·.isMarked) with
  | true => rfl
  | false => rfl

/-- Marking changes nothing but the mark bit of the one object. -/
theorem object?_mark : (m.mark a).heap.object? b
    = (m.heap.object? b).map fun o => if b = a ∧ a ≠ 0 then o.setMark else o := by
  by_cases ha : a = 0
  · simp [ha, mark_null]
  · rw [mark_eq ha]
    show (m.heap.modify a (·.setMark)).object? b = _
    rw [Heap.object?_modify]
    by_cases hb : b = a
    · simp [hb, ha]
    · simp [hb]

/-- An object that is there is marked afterwards. -/
theorem marked_mark : (m.mark a).heap.marked b = true
    ↔ m.heap.marked b = true ∨ (b = a ∧ m.Live a) := by
  rw [Heap.marked, Heap.marked, object?_mark]
  by_cases hhere : b = a ∧ a ≠ 0
  · obtain ⟨hb, ha⟩ := hhere
    simp only [Live]
    rw [hb]
    cases m.heap.object? a with
    | none => simp
    | some o => simp [ha, HeapObject.isMarked_setMark]
  · have hnot : ¬ (b = a ∧ m.Live a) := fun h => hhere ⟨h.1, h.2.1⟩
    simp [hhere, hnot]

/-- The stack grows exactly if the bit of an object was clear before. -/
theorem stack_mark : (m.mark a).stack
    = if m.Live a ∧ m.heap.marked a = false then m.stack ++ [a] else m.stack := by
  by_cases ha : a = 0
  · have hnull : ¬ m.Live 0 := fun h => h.1 rfl
    rw [ha, mark_null, if_neg fun h => hnull h.1]
  · have hclear : (m.heap.object? a).any (!·.isMarked) = true ↔ m.Live a ∧ m.heap.marked a = false := by
      unfold Live Heap.marked
      cases m.heap.object? a with
      | none => simp
      | some o => simp [ha]
    rw [mark_eq ha]
    exact if_congr hclear rfl rfl

theorem object?_swept : m.swept.heap.object? a
    = (m.heap.object? a).map fun o => if a ∈ m.stack then o.clearMark else o :=
  Heap.object?_clear m.stack m.heap a

theorem marked_swept : m.swept.heap.marked a = true ↔ m.heap.marked a = true ∧ a ∉ m.stack := by
  rw [Heap.marked, Heap.marked, object?_swept]
  by_cases ha : a ∈ m.stack
  · cases m.heap.object? a with
    | none => simp
    | some o => simp [ha, HeapObject.isMarked_clearMark]
  · simp [ha]

/-- The objects that are marked are those that were marked since the last
phase ended, and the stack has each of them once. -/
structure Remembers (m : MarkedHeap) (remembered : Finset Nat) : Prop where
  once : m.stack.Nodup
  stack : ∀ a, a ∈ m.stack ↔ a ∈ remembered
  bits : ∀ a, m.heap.marked a = true ↔ a ∈ m.stack

namespace Remembers

theorem mark (h : m.Remembers remembered) (a : Nat) :
    (m.mark a).Remembers (if m.Live a then insert a remembered else remembered) := by
  have hmem : ∀ b, b ∈ (m.mark a).stack ↔ b ∈ m.stack ∨ (b = a ∧ m.Live a) := by
    intro b
    rw [stack_mark]
    split
    · next hnew => simp [hnew.1]
    · next hold =>
        constructor
        · exact Or.inl
        · rintro (hb | ⟨hb, hlive⟩)
          · exact hb
          · -- an object that is not pushed was marked, so it is on the stack
            have hmarked : m.heap.marked a = true :=
              Bool.eq_true_of_not_eq_false fun hclear => hold ⟨hlive, hclear⟩
            rw [hb]
            exact (h.bits a).mp hmarked
  refine ⟨?_, ?_, ?_⟩
  · rw [stack_mark]
    split
    · next hnew =>
        have hfresh : a ∉ m.stack := by
          rw [← h.bits, hnew.2]
          exact Bool.false_ne_true
        exact List.nodup_append.mpr ⟨h.once, List.nodup_singleton a, by
          intro b hb c hc
          rw [List.mem_singleton.mp hc]
          exact fun heq => hfresh (heq ▸ hb)⟩
    · exact h.once
  · intro b
    rw [hmem, h.stack]
    split
    · next hlive => simp [hlive, or_comm]
    · next hdead => simp [hdead]
  · intro b
    rw [hmem, marked_mark, h.bits]

theorem swept (h : m.Remembers remembered) : m.swept.Remembers ∅ := by
  refine ⟨List.nodup_nil, fun a => ⟨fun hmem => (nomatch hmem), fun hmem => ?_⟩, fun a => ?_⟩
  · exact absurd hmem (Finset.notMem_empty a)
  · constructor
    · intro hmarked
      obtain ⟨hbefore, hleft⟩ := marked_swept.mp hmarked
      exact absurd ((h.bits a).mp hbefore) hleft
    · intro hmem
      cases hmem

/-- Every operation keeps to it. -/
theorem perform (h : m.Remembers remembered) (hok : m.perform op = .ok m') :
    m'.Remembers (m.since remembered op) := by
  cases op with
  | mark route =>
      obtain ⟨calls, hm'⟩ := follow_mark hok
      have hcounted : ({ m with calls } : MarkedHeap).Remembers remembered := ⟨h.once, h.stack, h.bits⟩
      rw [hm']
      exact hcounted.mark (route.target m)
  | start =>
      rw [MarkedHeap.perform, start_eq] at hok
      split at hok
      · cases hok
      · cases hok
        exact ⟨h.once, h.stack, h.bits⟩
  | finish =>
      rw [MarkedHeap.perform, finish_eq] at hok
      split at hok
      · cases hok
        exact h.swept
      · cases hok

end Remembers

end MarkedHeap

open Heap MarkedHeap

namespace MarkHistory

variable {m₀ m : MarkedHeap} {remembered : Finset Nat}

end MarkHistory

end Crossing
