import Crossing.Argument.Move
import Crossing.Proofs.Yields

/-
The machine that argument moves run on: physical registers, and the frame
above the stack pointer as bytes. A move is a relation between contents,
because machines differ in what they leave in the upper part of a register
that is written in a narrow width, and in the moves that go through a spare
register. What is said here about moves holds on all of them.
-/
namespace Crossing

-- ============================================================= contents

/-- What registers and frame hold. Registers go by their physical number,
bytes by their offset from the stack pointer. -/
structure Contents where
  reg : Nat → Nat
  byte : Nat → UInt8

namespace Contents

/-- The number in `size` bytes from `at_` on, least significant first. -/
def load (c : Contents) : Nat → Nat → Nat
  | _, 0 => 0
  | at_, size + 1 => (c.byte at_).toNat + 256 * c.load (at_ + 1) size

/-- Only the bytes that are read count. -/
theorem load_congr {c c' : Contents} (size : Nat) :
    ∀ {at_}, (∀ o, at_ ≤ o → o < at_ + size → c'.byte o = c.byte o) →
      c'.load at_ size = c.load at_ size := by
  induction size with
  | zero => intro at_ _; rfl
  | succ size ih =>
      intro at_ h
      rw [load, load, h at_ (Nat.le_refl _) (by omega),
        ih fun o hlo hhi => h o (by omega) (by omega)]

theorem load_of_byte {c c' : Contents} (h : c'.byte = c.byte) (at_ size : Nat) :
    c'.load at_ size = c.load at_ size :=
  load_congr size fun o _ _ => congrFun h o

/-- Fewer bytes hold the low part of the number. -/
theorem load_mod (c : Contents) (size : Nat) :
    ∀ {at_ more}, size ≤ more → c.load at_ more % 256 ^ size = c.load at_ size := by
  induction size with
  | zero => intro at_ more _; rw [Nat.pow_zero, Nat.mod_one]; rfl
  | succ size ih =>
      intro at_ more h
      obtain ⟨more, rfl⟩ : ∃ k, more = k + 1 := ⟨more - 1, by omega⟩
      have hb := (c.byte at_).toNat_lt
      have hlow : ((c.byte at_).toNat + 256 * c.load (at_ + 1) more) % 256 = (c.byte at_).toNat := by
        omega
      have hhigh : ((c.byte at_).toNat + 256 * c.load (at_ + 1) more) / 256
          = c.load (at_ + 1) more := by
        omega
      rw [load, load, Nat.pow_succ', Nat.mod_mul, hlow, hhigh, ih (Nat.le_of_succ_le_succ h)]

theorem load_lt (c : Contents) (at_ size : Nat) : c.load at_ size < 256 ^ size := by
  rw [← c.load_mod size (Nat.le_refl size)]
  exact Nat.mod_lt _ (Nat.pow_pos (by decide))

/-- Contents with the low bytes of `v` written to the frame. -/
def store (c : Contents) (at_ size v : Nat) : Contents :=
  { c with
    byte := fun o =>
      if at_ ≤ o ∧ o < at_ + size then UInt8.ofNat (v / 256 ^ (o - at_)) else c.byte o }

/-- What was written is read back. -/
theorem load_store (c : Contents) (size : Nat) :
    ∀ {at_ v}, (c.store at_ size v).load at_ size = v % 256 ^ size := by
  induction size with
  | zero => intro at_ v; rw [Nat.pow_zero, Nat.mod_one]; rfl
  | succ size ih =>
      intro at_ v
      have htail : (c.store at_ (size + 1) v).load (at_ + 1) size
          = (c.store (at_ + 1) size (v / 256)).load (at_ + 1) size := by
        refine load_congr size fun o hlo hhi => ?_
        simp only [store]
        rw [if_pos (by omega), if_pos (by omega), Nat.div_div_eq_div_mul, ← Nat.pow_succ',
          show (o - (at_ + 1)).succ = o - at_ by omega]
      rw [load, htail, ih, Nat.pow_succ', Nat.mod_mul]
      simp [store]

end Contents

-- ============================================================= machines

/-- A machine as moves see it. -/
structure Machine where
  model : RegisterModel
  /-- The stack pointer, which no move changes. -/
  sp : Nat
  /-- A register that any move may go through. -/
  spare : Option Nat

namespace Machine

/-- What native code gets for a reference whose slot is at `slot`: the
address of the slot, or null for a null reference that may be null. -/
def handle (M : Machine) (slot : FrameOffset) (nullAllowed : Bool) (reference : Nat) : Nat :=
  if nullAllowed ∧ reference % 256 ^ 4 = 0 then 0 else M.sp + slot.value

/-- A null reference is null by its 32 bits alone. -/
theorem handle_mod (M : Machine) (slot : FrameOffset) (nullAllowed : Bool) (v : Nat) :
    M.handle slot nullAllowed (v % 256 ^ 4) = M.handle slot nullAllowed v := by
  rw [handle, handle, Nat.mod_mod]

/-- Writes the low bytes of `v` to the frame. -/
structure Stores (M : Machine) (c c' : Contents) (at_ size v : Nat) : Prop where
  value : c'.load at_ size = v % 256 ^ size
  outside : ∀ o, o < at_ ∨ at_ + size ≤ o → c'.byte o = c.byte o
  regs : ∀ q, M.spare ≠ some q → c'.reg q = c.reg q

/-- Sets the low bytes of a register; its other bytes may be anything. -/
structure Sets (M : Machine) (c c' : Contents) (place size v : Nat) : Prop where
  value : c'.reg place % 256 ^ size = v % 256 ^ size
  others : ∀ q, q ≠ place → M.spare ≠ some q → c'.reg q = c.reg q
  bytes : c'.byte = c.byte

/-- The reference that a handle is made of: in a register, or in the slot. -/
def Refers (M : Machine) (c : Contents) (slot : FrameOffset) (held : Option Register)
    (reference : Nat) : Prop :=
  match held with
  | none => reference = c.load slot.value 4
  | some reg => ∃ r, M.model.place reg = .ok r ∧ reference = c.reg r

/-- What a move does. -/
def Does (M : Machine) (m : ArgMove) (c c' : Contents) : Prop :=
  match m with
  | .spillReference reg slot =>
      ∃ r, M.model.place reg = .ok r ∧ M.Stores c c' slot.value 4 (c.reg r)
  | .storeToStack dest src size =>
      ∃ r, M.model.place src = .ok r ∧ M.Stores c c' dest.value size (c.reg r)
  | .handleToStack dest slot nullAllowed =>
      M.Stores c c' dest.value M.model.pointerSize
        (M.handle slot nullAllowed (c.load slot.value 4))
  | .copyToStack dest src size => M.Stores c c' dest.value size (c.load src.value size)
  | .moveToRegister dest src size =>
      ∃ d r, M.model.place dest = .ok d ∧ M.model.place src = .ok r
        ∧ M.Sets c c' d size (c.reg r)
  | .handleToRegister dest slot held nullAllowed =>
      ∃ d reference, M.model.place dest = .ok d ∧ M.Refers c slot held reference
        ∧ M.Sets c c' d M.model.pointerSize (M.handle slot nullAllowed reference)
  | .loadToRegister dest src size =>
      ∃ d, M.model.place dest = .ok d ∧ M.Sets c c' d size (c.load src.value size)

/-- Moves one after the other. -/
def Runs (M : Machine) : List ArgMove → Contents → Contents → Prop
  | [], c, c' => c' = c
  | m :: ms, c, c' => ∃ c₁, M.Does m c c₁ ∧ M.Runs ms c₁ c'

theorem runs_append {M : Machine} (ms ms' : List ArgMove) :
    ∀ {c c'}, M.Runs (ms ++ ms') c c' ↔ ∃ c₁, M.Runs ms c c₁ ∧ M.Runs ms' c₁ c' := by
  induction ms with
  | nil =>
      intro c c'
      exact ⟨fun h => ⟨c, rfl, h⟩, fun ⟨c₁, heq, h⟩ => heq ▸ h⟩
  | cons m ms ih =>
      intro c c'
      constructor
      · rintro ⟨c₁, hm, h⟩
        obtain ⟨c₂, hms, hms'⟩ := ih.mp h
        exact ⟨c₂, ⟨c₁, hm, hms⟩, hms'⟩
      · rintro ⟨c₂, ⟨c₁, hm, hms⟩, hms'⟩
        exact ⟨c₁, hm, ih.mpr ⟨c₂, hms, hms'⟩⟩

theorem runs_one {M : Machine} {m : ArgMove} {c c' : Contents} :
    M.Runs [m] c c' ↔ M.Does m c c' :=
  ⟨fun ⟨_, hm, heq⟩ => heq ▸ hm, fun h => ⟨c', h, rfl⟩⟩

-- ------------------------------------------------------ moves can be made

/-- The registers a move names exist. -/
def Placed (M : Machine) : ArgMove → Prop
  | .spillReference reg _ | .storeToStack _ reg _ => ∃ r, M.model.place reg = .ok r
  | .handleToStack .. | .copyToStack .. => True
  | .moveToRegister dest src _ =>
      (∃ d, M.model.place dest = .ok d) ∧ ∃ r, M.model.place src = .ok r
  | .handleToRegister dest _ held _ =>
      (∃ d, M.model.place dest = .ok d) ∧ ∀ reg, held = some reg → ∃ r, M.model.place reg = .ok r
  | .loadToRegister dest _ _ => ∃ d, M.model.place dest = .ok d

theorem stores_store (M : Machine) (c : Contents) (at_ size v : Nat) :
    M.Stores c (c.store at_ size v) at_ size v where
  value := c.load_store size
  outside o ho := if_neg (by omega)
  regs _ _ := rfl

theorem sets_update (M : Machine) (c : Contents) (place size v : Nat) :
    M.Sets c { c with reg := fun q => if q = place then v else c.reg q } place size v where
  value := by simp
  others q hq _ := if_neg hq
  bytes := rfl

/-- A move whose registers exist can be made from any contents. -/
theorem does_total {M : Machine} {m : ArgMove} (h : M.Placed m) (c : Contents) :
    ∃ c', M.Does m c c' := by
  cases m with
  | spillReference reg slot =>
      obtain ⟨r, hr⟩ := h
      exact ⟨_, r, hr, M.stores_store c _ _ _⟩
  | storeToStack dest src size =>
      obtain ⟨r, hr⟩ := h
      exact ⟨_, r, hr, M.stores_store c _ _ _⟩
  | handleToStack dest slot nullAllowed => exact ⟨_, M.stores_store c _ _ _⟩
  | copyToStack dest src size => exact ⟨_, M.stores_store c _ _ _⟩
  | moveToRegister dest src size =>
      obtain ⟨⟨d, hd⟩, r, hr⟩ := h
      exact ⟨_, d, r, hd, hr, M.sets_update c _ _ _⟩
  | handleToRegister dest slot held nullAllowed =>
      obtain ⟨⟨d, hd⟩, hheld⟩ := h
      have href : ∃ reference, M.Refers c slot held reference := by
        cases held with
        | none => exact ⟨_, rfl⟩
        | some reg =>
            obtain ⟨r, hr⟩ := hheld reg rfl
            exact ⟨_, r, hr, rfl⟩
      obtain ⟨reference, href⟩ := href
      exact ⟨_, d, reference, hd, href, M.sets_update c _ _ _⟩
  | loadToRegister dest src size =>
      obtain ⟨d, hd⟩ := h
      exact ⟨_, d, hd, M.sets_update c _ _ _⟩

/-- Moves whose registers exist can all be made. -/
theorem runs_total {M : Machine} {ms : List ArgMove} (h : ∀ m ∈ ms, M.Placed m) :
    ∀ c, ∃ c', M.Runs ms c c' := by
  induction ms with
  | nil => exact fun c => ⟨c, rfl⟩
  | cons m ms ih =>
      intro c
      obtain ⟨c₁, hm⟩ := does_total (h m (List.mem_cons_self ..)) c
      obtain ⟨c', hms⟩ := ih (fun m' hm' => h m' (List.mem_cons_of_mem m hm')) c₁
      exact ⟨c', c₁, hm, hms⟩

-- ------------------------------------------------------------- locations

/-- The low bytes of `v` are at a location, as many as the location has. -/
def Holds (M : Machine) (c : Contents) (l : Location) (v : Nat) : Prop :=
  match l with
  | .register reg size => ∃ r, M.model.place reg = .ok r ∧ c.reg r % 256 ^ size = v % 256 ^ size
  | .stack offset size => c.load offset.value size = v % 256 ^ size

end Machine

end Crossing
