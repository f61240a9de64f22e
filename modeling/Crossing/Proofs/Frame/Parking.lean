import Crossing.Proofs.Frame.Slot

/-
Registers that are parked in slots of a frame while something else runs.
They are stored one after the other; then every register may change; then
they are loaded one after the other. Slots that are apart keep their values
while later ones are stored (`Memory.read_park`), and places that differ
keep theirs while later ones are loaded (`unpark_spec`), so everything is
back in the end (`park_unpark`).
-/
namespace Crossing

namespace Glue

/-- A register that is parked in a slot, and how many bytes of it. -/
structure Parked where
  reg : Register
  slot : FrameOffset
  size : Nat

namespace Parked

def store (k : Parked) : Op := .store k.slot k.reg k.size

def load (k : Parked) : Op := .load k.reg k.slot k.size

/-- A slot has no byte in common with those of a frame from `lo` to `hi`. -/
def Beside (k : Parked) (lo hi : Nat) : Prop := hi ≤ k.slot.value ∨ k.slot.value + k.size ≤ lo

theorem Beside.symm {k k' : Parked} (h : k'.Beside k.slot.value (k.slot.value + k.size)) :
    k.Beside k'.slot.value (k'.slot.value + k'.size) := Or.symm h

/-- Registers that a target can park. -/
def Fits (t : Target) (k : Parked) : Prop :=
  t.Storable k.reg ∧ (k.size = 4 ∨ k.size = 8) ∧ k.slot.value + k.size ≤ 2 ^ 64

/-- A register that can be parked after another one. -/
structure Apart (t : Target) (k k' : Parked) : Prop where
  slots : k'.Beside k.slot.value (k.slot.value + k.size)
  regs : t.backend.Differ k'.reg k.reg

end Parked

end Glue

open Glue

-- ============================================================== memory

namespace Memory

/-- Memory in which registers have been parked; `f` is what they hold. -/
def park (m : Memory) (base : UInt64) (f : Register → Nat) (ks : List Parked) : Memory :=
  ks.foldl (fun m k => m.write (base + UInt64.ofNat k.slot.value) k.size (f k.reg)) m

variable (base : UInt64) (f : Register → Nat) {ks : List Parked}

/-- Parking leaves alone what lies beside the slots. -/
theorem park_sameOn {lo hi : Nat} (hhi : hi ≤ 2 ^ 64) : ∀ m : Memory,
    (∀ k ∈ ks, k.Beside lo hi ∧ k.slot.value + k.size ≤ 2 ^ 64) →
      SameOn m (m.park base f ks) base lo hi := by
  induction ks with
  | nil => exact fun _ _ _ _ _ => rfl
  | cons k ks ih =>
      intro m h
      obtain ⟨hbeside, hfits⟩ := h k List.mem_cons_self
      have hfirst := within_write m base k.slot.value k.size (f k.reg)
      exact (hfirst.sameOn hbeside hhi hfits).trans
        (ih _ fun k' hk' => h k' (List.mem_cons_of_mem k hk'))

/-- Slots that are apart all hold what was parked in them. -/
theorem read_park : ∀ m : Memory,
    ks.Pairwise (fun k k' => k'.Beside k.slot.value (k.slot.value + k.size)) →
    (∀ k ∈ ks, k.slot.value + k.size ≤ 2 ^ 64) → ∀ k ∈ ks,
      (m.park base f ks).read (base + UInt64.ofNat k.slot.value) k.size
        = f k.reg % 256 ^ k.size := by
  induction ks with
  | nil => exact fun _ _ _ k hk => absurd hk List.not_mem_nil
  | cons k ks ih =>
      intro m hapart hfits k' hk'
      obtain ⟨hlater, hrest⟩ := List.pairwise_cons.mp hapart
      have hfits' := fun k' hk' => hfits k' (List.mem_cons_of_mem k hk')
      rcases List.mem_cons.mp hk' with rfl | hk'
      · -- what is parked later lies beside this slot
        have hfirst := hfits k' List.mem_cons_self
        have hsame := park_sameOn base f hfirst
          (m.write (base + UInt64.ofNat k'.slot.value) k'.size (f k'.reg))
          fun q hq => ⟨hlater q hq, hfits' q hq⟩
        refine (hsame.read (Nat.le_refl _) (Nat.le_refl _)).trans (read_write m k'.size ?_)
        exact Nat.le_trans (Nat.le_add_left ..) hfirst
      · exact ih _ hrest hfits' k' hk'

end Memory

-- ================================================================ runs

namespace Glue

theorem Emission.instrs_append {ι : Type} (items items' : List (Item ι)) (n : Nat) :
    (Emission.mk (items ++ items') n).instrs
      = (Emission.mk items n).instrs ++ (Emission.mk items' n).instrs :=
  List.filterMap_append ..

namespace Target

/-- The code of operations, one after the other. -/
def code (t : Target) (ops : List Op) (next : Nat) :
    Except Violation (Emission t.backend.Instr) :=
  Emission.concat t.backend.lower ops next

/-- If operations have code, it runs through to a state with the property. -/
def Does (t : Target) (ops : List Op) (s : t.backend.Cpu) (Q : t.backend.Cpu → Prop) : Prop :=
  ∀ next, Yields (t.code ops next) fun e => Reaches t.backend.step e.instrs s Q

variable {t : Target} {ks : List Parked}

/-- Accesses to slots have code together if they have code one by one. -/
theorem code_slots {ops : List Op} (h : ∀ op ∈ ops, Accessing op
    ∧ ∃ next e, t.backend.lower op next = .ok e) : ∀ next, ∃ e, t.code ops next = .ok e := by
  induction ops with
  | nil => exact fun next => ⟨_, rfl⟩
  | cons op ops ih =>
      intro next
      obtain ⟨hop, _, _, hlower⟩ := h op List.mem_cons_self
      obtain ⟨e, he⟩ := lower_slot hop hlower next
      obtain ⟨rest, hrest⟩ := ih (fun op' hop' => h op' (List.mem_cons_of_mem op hop')) e.next
      rw [code] at hrest
      exact ⟨_, by simp only [code, Emission.concat, he, hrest, bind, Except.bind]; rfl⟩

theorem does_nil {s : t.backend.Cpu} {Q : t.backend.Cpu → Prop} (h : Q s) : t.Does [] s Q :=
  fun _ => yields_pure (Reaches.nil h)

/-- Operations are carried out one by one. -/
theorem Does.cons {op : Op} {ops : List Op} {s : t.backend.Cpu} {Q Q' : t.backend.Cpu → Prop}
    (hop : ∀ next, Yields (t.backend.lower op next) fun e =>
      Reaches t.backend.step e.instrs s Q)
    (hops : ∀ s', Q s' → t.Does ops s' Q') : t.Does (op :: ops) s Q' := by
  intro next
  refine yields_bind fun e he => yields_bind fun rest hrest => yields_pure ?_
  rw [Emission.instrs_append]
  exact (hop next e he).append fun s' hs' => hops s' hs' e.next rest hrest

theorem Does.mono {ops : List Op} {s : t.backend.Cpu} {Q Q' : t.backend.Cpu → Prop}
    (h : t.Does ops s Q) (himp : ∀ s', Q s' → Q' s') : t.Does ops s Q' :=
  fun next e he => (h next e he).mono himp

/-- Parking registers writes each of them to its slot. -/
theorem park_spec (h : ∀ k ∈ ks, k.Fits t) : ∀ s : t.backend.Cpu,
    t.Does (ks.map Parked.store) s fun s' => t.backend.sp s' = t.backend.sp s
      ∧ t.backend.content s' = t.backend.content s
      ∧ t.backend.memory s' = (t.backend.memory s).park (t.backend.sp s)
        (t.backend.content s) ks := by
  induction ks with
  | nil => exact fun s => does_nil ⟨rfl, rfl, rfl⟩
  | cons k ks ih =>
      intro s
      obtain ⟨hreg, hsize, -⟩ := h k List.mem_cons_self
      refine Does.cons (fun next e he => store_spec hreg hsize k.slot next e he s) ?_
      intro s₁ hstored
      refine (ih (fun k' hk' => h k' (List.mem_cons_of_mem k hk')) s₁).mono ?_
      rintro s' ⟨hsp, hcontent, hmemory⟩
      refine ⟨hsp.trans hstored.sp, hcontent.trans hstored.content, ?_⟩
      rw [hmemory, hstored.sp, hstored.content, hstored.memory]
      rfl

/-- Loading parked registers sets each of them to what its slot holds. -/
theorem unpark_spec (h : ∀ k ∈ ks, k.Fits t)
    (hregs : ks.Pairwise fun k k' => t.backend.Differ k'.reg k.reg) : ∀ s : t.backend.Cpu,
    t.Does (ks.map Parked.load) s fun s' =>
      (∀ k ∈ ks, t.backend.content s' k.reg = (t.backend.memory s).read
        (t.backend.sp s + UInt64.ofNat k.slot.value) k.size)
      ∧ ∀ r, (∀ k ∈ ks, t.backend.Differ k.reg r) →
        t.backend.content s' r = t.backend.content s r := by
  induction ks with
  | nil => exact fun s => does_nil ⟨fun k hk => absurd hk List.not_mem_nil, fun _ _ => rfl⟩
  | cons k ks ih =>
      intro s
      obtain ⟨hreg, hsize, -⟩ := h k List.mem_cons_self
      obtain ⟨hlater, hrest⟩ := List.pairwise_cons.mp hregs
      refine Does.cons (fun next e he => load_spec hreg hsize k.slot next e he s) ?_
      intro s₁ hloaded
      refine (ih (fun k' hk' => h k' (List.mem_cons_of_mem k hk')) hrest s₁).mono ?_
      rintro s' ⟨hset, hkept⟩
      refine ⟨fun k' hk' => ?_, fun r hr => ?_⟩
      · rcases List.mem_cons.mp hk' with rfl | hk'
        · -- what is loaded later goes elsewhere
          rw [hkept k'.reg hlater, hloaded.content]
        · rw [hset k' hk', hloaded.sp, hloaded.memory]
      · rw [hkept r fun k' hk' => hr k' (List.mem_cons_of_mem k hk'),
          hloaded.others r (hr k List.mem_cons_self)]

/-- Something else has run and come back: the stack pointer is the same, and
so are slots. All registers may have changed, and the rest of memory. -/
structure Returns (t : Target) (ks : List Parked) (s s' : t.backend.Cpu) : Prop where
  sp : t.backend.sp s' = t.backend.sp s
  slots : ∀ k ∈ ks, (t.backend.memory s).SameOn (t.backend.memory s') (t.backend.sp s)
    k.slot.value (k.slot.value + k.size)

/-- What was parked is back, whatever has happened to the registers. Slots
that hold something else are loaded along with it. -/
theorem park_unpark {more : List Parked} (h : ∀ k ∈ ks ++ more, k.Fits t)
    (hapart : (ks ++ more).Pairwise (Parked.Apart t)) (s : t.backend.Cpu) :
    t.Does (ks.map Parked.store) s fun s₁ => ∀ s₂, t.Returns (ks ++ more) s₁ s₂ →
      t.Does ((ks ++ more).map Parked.load) s₂ fun s₃ =>
        (∀ k ∈ ks, t.backend.content s₃ k.reg = t.backend.content s k.reg % 256 ^ k.size)
        ∧ ∀ k ∈ more, t.backend.content s₃ k.reg = (t.backend.memory s).read
          (t.backend.sp s + UInt64.ofNat k.slot.value) k.size := by
  obtain ⟨hfirst, -, hacross⟩ := List.pairwise_append.mp hapart
  have hfits : ∀ k ∈ ks ++ more, k.slot.value + k.size ≤ 2 ^ 64 := fun k hk => (h k hk).2.2
  have hparked := fun k hk => h k (List.mem_append_left more hk)
  refine (park_spec hparked s).mono fun s₁ ⟨hsp, _, hmemory⟩ s₂ hback => ?_
  have hsame := hback.slots
  rw [hsp, hmemory] at hsame
  refine (unpark_spec h (hapart.imp fun hk => hk.regs) s₂).mono fun s₃ ⟨hset, _⟩ => ?_
  rw [hback.sp, hsp] at hset
  refine ⟨fun k hk => ?_, fun k hk => ?_⟩
  · have hmem := List.mem_append_left more hk
    rw [hset k hmem, (hsame k hmem).read (Nat.le_refl _) (Nat.le_refl _)]
    exact Memory.read_park _ _ _ (hfirst.imp fun hk => hk.slots)
      (fun k hk => hfits k (List.mem_append_left more hk)) k hk
  · have hmem := List.mem_append_right ks hk
    rw [hset k hmem, (hsame k hmem).read (Nat.le_refl _) (Nat.le_refl _)]
    have hbeside := Memory.park_sameOn (t.backend.sp s) (t.backend.content s) (hfits k hmem)
      (t.backend.memory s) fun k' hk' =>
        ⟨(hacross k' hk' k hk).slots.symm, hfits k' (List.mem_append_left more hk')⟩
    exact hbeside.read (Nat.le_refl _) (Nat.le_refl _)

end Target

end Glue

end Crossing
