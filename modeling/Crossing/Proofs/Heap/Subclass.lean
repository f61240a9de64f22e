import Crossing.Heap.Type
import Crossing.Proofs.Heap.Allocation
import Mathlib.Logic.Relation

/-
Instance-of and the subtype order. A class is searched for by following
superclasses, with nothing in the search itself that would make it end. It
ends because of how heaps come about: a class can only be made below one
that is there already, which therefore lies below it in memory.

The order of the classes follows from the same fact. That a class reaches
another one is the reflexive and transitive closure of what was asked for
when they were made, and no two classes reach each other.
-/
namespace Crossing

namespace Heap

variable {h₀ h : Heap} {grants : List Grant} {g : Grant} {a klass superclass other : Nat}

-- ============================================================ referring

/-- A class was granted at an address. -/
def ClassAt (grants : List Grant) (a : Nat) : Prop := ∃ superclass, ⟨.newClass superclass, a⟩ ∈ grants

/-- What a request refers to is there: the superclass, which may be null,
or the class of an object. -/
def Request.Refers (earlier : List Grant) : Request → Prop
  | .newClass superclass => superclass = 0 ∨ ClassAt earlier superclass.toNat
  | .newObject klass => ClassAt earlier klass.toNat
  | .newString klass _ => ClassAt earlier klass.toNat

/-- Nothing was asked for that refers to what was not there yet. -/
def Proper : List Grant → Prop
  | [] => True
  | g :: earlier => g.request.Refers earlier ∧ Proper earlier

/-- What a grant refers to lies below its block. -/
theorem Proper.earlier (hproper : Proper grants)
    (hapart : grants.Pairwise fun later earlier => earlier.stop ≤ later.address) (hg : g ∈ grants) :
    ∃ earlier, g.request.Refers earlier ∧ ∀ c ∈ earlier, c ∈ grants ∧ c.stop ≤ g.address := by
  induction grants with
  | nil => cases hg
  | cons latest rest ih =>
      obtain ⟨hrefers, hrest⟩ := hproper
      obtain ⟨hbehind, hapart⟩ := List.pairwise_cons.mp hapart
      rcases List.mem_cons.mp hg with hlatest | hold
      · rw [hlatest]
        exact ⟨rest, hrefers, fun c hc => ⟨.tail _ hc, hbehind c hc⟩⟩
      · obtain ⟨earlier, hrefers, hbelow⟩ := ih hrest hapart hold
        exact ⟨earlier, hrefers, fun c hc => ⟨.tail _ (hbelow c hc).1, (hbelow c hc).2⟩⟩

-- =========================================================== superclass

/-- A class directly below another one. -/
def Extends (h : Heap) (klass superclass : Nat) : Prop := h.superclass? klass = some superclass

theorem extends_iff : h.Extends klass superclass
    ↔ superclass ≠ 0 ∧ ∃ o, h.object? klass = some o ∧ o.body = .classOf superclass := by
  unfold Extends superclass?
  constructor
  · intro hextends
    split at hextends
    · next s hobject =>
        split at hextends
        · cases hextends
        · next hnull =>
            cases hextends
            exact ⟨hnull, _, hobject, rfl⟩
    · cases hextends
  · rintro ⟨hnull, ⟨k, lockWord, body⟩, hobject, hbody⟩
    cases hbody
    rw [hobject]
    exact if_neg hnull

/-- A class extends the one it was asked for with, and no other. -/
theorem Laid.extends_iff (hlaid : h₀.Laid grants h) : h.Extends klass superclass
    ↔ superclass ≠ 0 ∧ ∃ s : HeapRef, s.toNat = superclass ∧ ⟨.newClass s, klass⟩ ∈ grants := by
  rw [Heap.extends_iff]
  refine and_congr_right fun _ => ?_
  constructor
  · rintro ⟨o, hobject, hbody⟩
    obtain ⟨⟨request, address⟩, hg, hat, hasked⟩ := hlaid.objects.mp hobject
    cases hat
    cases hasked
    cases request with
    | newClass s => exact ⟨s, ObjectBody.classOf.inj hbody, hg⟩
    | newObject k => cases hbody
    | newString k value => cases hbody
  · rintro ⟨s, hs, hg⟩
    exact ⟨_, hlaid.objects.mpr ⟨_, hg, rfl, rfl⟩, congrArg ObjectBody.classOf hs⟩

/-- Superclasses lie below their subclasses. -/
def Aged (h : Heap) : Prop := ∀ {klass superclass}, h.Extends klass superclass → superclass < klass

theorem Laid.superclass_earlier (hlaid : h₀.Laid grants h) (hproper : Proper grants)
    (hextends : h.Extends klass superclass) : ClassAt grants superclass ∧ superclass < klass := by
  obtain ⟨hnull, s, hs, hg⟩ := hlaid.extends_iff.mp hextends
  obtain ⟨earlier, hrefers, hbelow⟩ := hproper.earlier hlaid.apart hg
  rcases hrefers with hzero | ⟨r, hr⟩
  · rw [← hs, hzero] at hnull
    exact absurd rfl hnull
  · rw [hs] at hr
    obtain ⟨hmem, hstop⟩ := hbelow _ hr
    have hsize := eight_le_size (.newClass r)
    have hlt : superclass + (Request.newClass r).size ≤ klass := hstop
    exact ⟨⟨r, hmem⟩, by omega⟩

theorem Laid.aged (hlaid : h₀.Laid grants h) (hproper : Proper grants) : h.Aged :=
  fun hextends => (hlaid.superclass_earlier hproper hextends).2

-- ============================================================= searches

/-- The search for a class from another one upwards. It ends when it has met
the class or when there is no class left; nothing else bounds it. -/
inductive Search (h : Heap) (other : Nat) : Option Nat → Bool → Prop where
  | found : Search h other (some other) true
  | up {klass : Nat} {b : Bool} : klass ≠ other → Search h other (h.superclass? klass) b →
      Search h other (some klass) b
  | top : Search h other none false

/-- A search has one answer at most. -/
theorem Search.unique {start : Option Nat} {b b' : Bool} (hs : Search h other start b)
    (hs' : Search h other start b') : b = b' := by
  induction hs with
  | found =>
      cases hs' with
      | found => rfl
      | up hne _ => exact absurd rfl hne
  | up hne _ ih =>
      cases hs' with
      | found => exact absurd rfl hne
      | up _ hup => exact ih hup
  | top =>
      cases hs'
      rfl

/-- The class that is found was reached. -/
theorem Search.reaches {start : Option Nat} {b : Bool} (hs : Search h other start b) (hb : b = true)
    (hstart : start = some klass) : Relation.ReflTransGen h.Extends klass other := by
  induction hs generalizing klass with
  | found =>
      cases hstart
      exact .refl
  | @up k b _ hup ih =>
      cases hstart
      cases hsuper : h.superclass? k with
      | none =>
          rw [hsuper] at hup
          cases hup
          cases hb
      | some superclass => exact .head hsuper (ih hb hsuper)
  | top => cases hstart

namespace Aged

variable (haged : h.Aged)
include haged

/-- With superclasses that lie below their subclasses the search ends. -/
theorem search (klass other : Nat) : h.Search other (some klass) (h.isSubclass klass other) := by
  induction klass using Nat.strongRecOn with
  | ind klass ih =>
      rw [isSubclass]
      by_cases hmet : klass = other
      · rw [if_pos hmet, hmet]
        exact .found
      · rw [if_neg hmet]
        apply Search.up hmet
        cases hsuper : h.superclass? klass with
        | none => exact .top
        | some superclass =>
            have hbelow : superclass < klass := haged hsuper
            show h.Search other (some superclass) (if superclass < klass then _ else false)
            rw [if_pos hbelow]
            exact ih superclass hbelow

theorem isSubclass_of_extends (hextends : h.Extends klass superclass)
    (hsub : h.isSubclass superclass other = true) : h.isSubclass klass other = true := by
  by_cases hmet : klass = other
  · rw [isSubclass, if_pos hmet]
  · have hup : h.Search other (h.superclass? klass) true := by
      rw [show h.superclass? klass = some superclass from hextends, ← hsub]
      exact haged.search superclass other
    exact (haged.search klass other).unique (.up hmet hup)

theorem isSubclass_iff : h.isSubclass klass other = true ↔ Relation.ReflTransGen h.Extends klass other := by
  constructor
  · intro hsub
    exact (haged.search klass other).reaches hsub rfl
  · intro hreach
    induction hreach using Relation.ReflTransGen.head_induction_on with
    | refl => rw [isSubclass, if_pos rfl]
    | head hextends _ ih => exact haged.isSubclass_of_extends hextends ih

/-- What a class reaches lies nowhere above it. -/
theorem le_of_reaches (hreach : Relation.ReflTransGen h.Extends klass other) : other ≤ klass := by
  induction hreach with
  | refl => exact Nat.le_refl _
  | tail _ hextends ih => exact Nat.le_trans (Nat.le_of_lt (haged hextends)) ih

end Aged

-- ============================================================ instances

theorem Laid.classOf?_iff (hlaid : h₀.Laid grants h) : h.classOf? a = some klass
    ↔ klass ≠ 0 ∧ ∃ request, ⟨request, a⟩ ∈ grants ∧ request.object.klass = klass := by
  unfold classOf?
  rw [Option.bind_eq_some_iff]
  constructor
  · rintro ⟨o, hobject, hclass⟩
    obtain ⟨⟨request, address⟩, hg, hat, hasked⟩ := hlaid.objects.mp hobject
    cases hat
    cases hasked
    split at hclass
    · cases hclass
    · next hnull =>
        cases hclass
        exact ⟨hnull, request, hg, rfl⟩
  · rintro ⟨hnull, request, hg, hklass⟩
    refine ⟨_, hlaid.objects.mpr ⟨_, hg, rfl, rfl⟩, ?_⟩
    rw [hklass, if_neg hnull]

theorem instanceOf_iff : h.instanceOf a klass = true
    ↔ a ≠ 0 ∧ klass ≠ 0 ∧ ∃ c, h.classOf? a = some c ∧ h.isSubclass c klass = true := by
  rw [instanceOf, Bool.and_eq_true, Bool.and_eq_true, decide_eq_true_eq, decide_eq_true_eq,
    Option.any_eq_true, and_assoc]

/-- What is true of the classes of a heap, and of the objects of these
classes, after some grants. -/
structure SubtypeOrder (h : Heap) (grants : List Grant) : Prop where
  /-- A class extends the one it was asked for with, an older class. -/
  extension : ∀ {klass superclass}, h.Extends klass superclass
    ↔ superclass ≠ 0 ∧ ∃ s : HeapRef, s.toNat = superclass ∧ ⟨.newClass s, klass⟩ ∈ grants
  older : ∀ {klass superclass}, h.Extends klass superclass →
    ClassAt grants superclass ∧ superclass < klass
  /-- Every search ends, and with the answer that is given. -/
  ends : ∀ klass other b, h.Search other (some klass) b ↔ b = h.isSubclass klass other
  closure : ∀ klass other,
    h.isSubclass klass other = true ↔ Relation.ReflTransGen h.Extends klass other
  refl : ∀ klass, h.isSubclass klass klass = true
  trans : ∀ {klass middle other}, h.isSubclass klass middle = true →
    h.isSubclass middle other = true → h.isSubclass klass other = true
  antisymm : ∀ {klass other}, h.isSubclass klass other = true →
    h.isSubclass other klass = true → klass = other
  /-- An object is of the class it was asked for with. -/
  classes : ∀ {a klass}, h.classOf? a = some klass
    ↔ klass ≠ 0 ∧ ∃ request, ⟨request, a⟩ ∈ grants ∧ request.object.klass = klass
  instances : ∀ a klass, h.instanceOf a klass = true
    ↔ a ≠ 0 ∧ klass ≠ 0 ∧ ∃ c, h.classOf? a = some c ∧ Relation.ReflTransGen h.Extends c klass

end Heap

open Heap

/-- Being a subclass is a partial order, the closure of what was asked for,
and an object is an instance of what its class is below or at. -/
theorem AllocHistory.subtype_order {h₀ h : Heap} {grants : List Grant}
    (hist : AllocHistory h₀ grants h) (hfresh : h₀.Fresh) (hproper : Proper grants) :
    h.SubtypeOrder grants := by
  have hlaid := hist.laid hfresh
  have haged : h.Aged := hlaid.aged hproper
  refine ⟨hlaid.extends_iff, hlaid.superclass_earlier hproper, ?_, fun _ _ => haged.isSubclass_iff,
    ?_, ?_, ?_, hlaid.classOf?_iff, ?_⟩
  · intro klass other b
    constructor
    · intro hsearch
      exact hsearch.unique (haged.search klass other)
    · intro hb
      rw [hb]
      exact haged.search klass other
  · intro klass
    exact haged.isSubclass_iff.mpr .refl
  · intro klass middle other hsub hsub'
    exact haged.isSubclass_iff.mpr ((haged.isSubclass_iff.mp hsub).trans (haged.isSubclass_iff.mp hsub'))
  · intro klass other hsub hsub'
    have hbelow := haged.le_of_reaches (haged.isSubclass_iff.mp hsub)
    have habove := haged.le_of_reaches (haged.isSubclass_iff.mp hsub')
    exact Nat.le_antisymm habove hbelow
  · intro a klass
    rw [instanceOf_iff]
    simp only [haged.isSubclass_iff]

/-- A class, one below it, and an object of the latter. -/
def derivedGrants : List Grant :=
  [⟨.newObject 0x40000018, 0x40000028⟩, ⟨.newClass 0x40000008, 0x40000018⟩, ⟨.newClass 0, 0x40000008⟩]

/-- The heap they were granted in. -/
def sixUnits : Heap := { base := lowBase, capacity := 48 }

theorem derivedGrants_history : ∃ h, AllocHistory sixUnits derivedGrants h := by
  have hstart : AllocHistory sixUnits [] sixUnits := .start
  have hupper := hstart.put (.newClass 0) (by decide)
  have hlower := hupper.put (.newClass 0x40000008) (by decide)
  have hobject := hlower.put (.newObject 0x40000018) (by decide)
  exact ⟨_, hobject⟩

theorem derivedGrants_proper : Proper derivedGrants :=
  ⟨⟨_, .head _⟩, .inr ⟨_, .head _⟩, .inl rfl, trivial⟩

/-- The object is an instance of both classes, and nothing is an instance of
null; the upper class does not reach the lower one. -/
theorem subtype_order_derived : ∃ h, AllocHistory sixUnits derivedGrants h
    ∧ h.instanceOf 0x40000028 0x40000018 = true ∧ h.instanceOf 0x40000028 0x40000008 = true
    ∧ h.instanceOf 0x40000028 0 = false ∧ h.isSubclass 0x40000008 0x40000018 = false := by
  have hmade : ofCapacity 48 = .ok sixUnits := rfl
  obtain ⟨h, hist⟩ := derivedGrants_history
  have horder := hist.subtype_order (ofCapacity_fresh hmade) derivedGrants_proper
  have hderived : h.Extends 0x40000018 0x40000008 := by
    rw [horder.extension]
    exact ⟨by decide, 0x40000008, rfl, .tail _ (.head _)⟩
  have hclass : h.classOf? 0x40000028 = some 0x40000018 := by
    rw [horder.classes]
    exact ⟨by decide, _, .head _, rfl⟩
  refine ⟨h, hist, ?_, ?_, ?_, ?_⟩
  · rw [horder.instances]
    exact ⟨by decide, by decide, _, hclass, .refl⟩
  · rw [horder.instances]
    exact ⟨by decide, by decide, _, hclass, .single hderived⟩
  · rw [Bool.eq_false_iff, ne_eq, horder.instances]
    rintro ⟨-, hnull, -⟩
    exact hnull rfl
  · rw [Bool.eq_false_iff]
    intro hback
    have hsub : h.isSubclass 0x40000018 0x40000008 = true :=
      (horder.closure _ _).mpr (.single hderived)
    exact absurd (horder.antisymm hsub hback) (by decide)

end Crossing
