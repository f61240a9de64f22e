import Crossing.Glue.Op

/-
What it means to execute glue code. Memory is bytes under 64-bit addresses,
which wrap around. Code is a list of items; an instruction goes on to the
next one or branches, a branch to a label that is bound in the code goes
on there, and any other branch leaves the code.

`Runs` is a relation only because code can loop; it gives every state at
most one outcome (`Runs.unique`), so to show a run is to show how the code
ends.
-/
namespace Crossing

-- ============================================================== memory

structure Memory where
  byte : UInt64 → UInt8

namespace Memory

variable {m m' : Memory} {addr : UInt64}

/-- The number in `size` bytes from an address on, least significant
first. -/
def read (m : Memory) (addr : UInt64) : Nat → Nat
  | 0 => 0
  | size + 1 => (m.byte addr).toNat + 256 * m.read (addr + 1) size

/-- Memory with the low bytes of `v` written. -/
def write (m : Memory) (addr : UInt64) (size v : Nat) : Memory where
  byte a := if (a - addr).toNat < size then UInt8.ofNat (v / 256 ^ (a - addr).toNat) else m.byte a

def read32 (m : Memory) (addr : UInt64) : UInt32 := UInt32.ofNat (m.read addr 4)

def read64 (m : Memory) (addr : UInt64) : UInt64 := UInt64.ofNat (m.read addr 8)

def write32 (m : Memory) (addr : UInt64) (v : UInt32) : Memory := m.write addr 4 v.toNat

def write64 (m : Memory) (addr : UInt64) (v : UInt64) : Memory := m.write addr 8 v.toNat

/-- Only the bytes that are read count. -/
theorem read_congr (size : Nat) : ∀ {addr : UInt64}, (∀ i, i < size →
      m'.byte (addr + UInt64.ofNat i) = m.byte (addr + UInt64.ofNat i)) →
    m'.read addr size = m.read addr size := by
  induction size with
  | zero => intro addr _; rfl
  | succ size ih =>
      intro addr h
      have hfirst : m'.byte addr = m.byte addr := by
        have hzero := h 0 (Nat.succ_pos size)
        rwa [show UInt64.ofNat 0 = 0 from rfl, UInt64.add_zero] at hzero
      have hrest : m'.read (addr + 1) size = m.read (addr + 1) size := by
        apply ih
        intro i hi
        have hnext := h (i + 1) (Nat.succ_lt_succ hi)
        rwa [UInt64.ofNat_add, UInt64.add_comm (UInt64.ofNat i), ← UInt64.add_assoc] at hnext
      rw [read, read, hfirst, hrest]

/-- What was written is read back. -/
theorem read_write (m : Memory) (size : Nat) (hsize : size ≤ 2 ^ 64) :
    ∀ {addr : UInt64} {v : Nat}, (m.write addr size v).read addr size = v % 256 ^ size := by
  induction size with
  | zero => intro addr v; rw [Nat.pow_zero, Nat.mod_one]; rfl
  | succ size ih =>
      intro addr v
      have htail : (m.write addr (size + 1) v).read (addr + 1) size
          = (m.write (addr + 1) size (v / 256)).read (addr + 1) size := by
        apply read_congr
        intro i hi
        have hplace : (addr + 1 + UInt64.ofNat i - addr).toNat = i + 1
            ∧ (addr + 1 + UInt64.ofNat i - (addr + 1)).toNat = i := by
          have haddr := addr.toNat_lt
          simp only [UInt64.toNat_sub, UInt64.toNat_add, UInt64.toNat_ofNat', UInt64.toNat_one]
          omega
        simp only [write, hplace.1, hplace.2]
        rw [if_pos (Nat.succ_lt_succ hi), if_pos hi, Nat.pow_succ', Nat.div_div_eq_div_mul]
      rw [read, htail, ih (Nat.le_of_succ_le hsize), Nat.pow_succ', Nat.mod_mul]
      simp [write]

/-- What lies elsewhere in a block is left alone. -/
theorem read_write_apart (m : Memory) (base : UInt64) {o size o' size' : Nat} (v : Nat)
    (hapart : o + size ≤ o' ∨ o' + size' ≤ o) (ho : o + size ≤ 2 ^ 64) (ho' : o' + size' ≤ 2 ^ 64) :
    (m.write (base + UInt64.ofNat o') size' v).read (base + UInt64.ofNat o) size
      = m.read (base + UInt64.ofNat o) size := by
  apply read_congr
  intro i hi
  have hplace : ¬ (base + UInt64.ofNat o + UInt64.ofNat i - (base + UInt64.ofNat o')).toNat < size' := by
    have hbase := base.toNat_lt
    simp only [UInt64.toNat_sub, UInt64.toNat_add, UInt64.toNat_ofNat']
    omega
  simp only [write, if_neg hplace]

@[simp] theorem read32_write32 (m : Memory) (addr : UInt64) (v : UInt32) :
    (m.write32 addr v).read32 addr = v := by
  rw [read32, write32, read_write m 4 (by decide), Nat.mod_eq_of_lt v.toNat_lt, UInt32.ofNat_toNat]

@[simp] theorem read64_write64 (m : Memory) (addr : UInt64) (v : UInt64) :
    (m.write64 addr v).read64 addr = v := by
  rw [read64, write64, read_write m 8 (by decide), Nat.mod_eq_of_lt v.toNat_lt, UInt64.ofNat_toNat]

end Memory

-- ================================================================ runs

namespace Glue

/-- What an instruction leads to. -/
inductive Effect (σ : Type) where
  | next (s : σ)
  | branch (label : Nat) (s : σ)

/-- How a piece of code is left: at its end, or by a branch out of it. -/
inductive Outcome (σ : Type) where
  | through (s : σ)
  | branched (label : Nat) (s : σ)

/-- The items from a label on, if it is bound among them. -/
def target? {ι : Type} (label : Nat) : List (Item ι) → Option (List (Item ι))
  | [] => none
  | .bind l :: rest => if l = label then some rest else target? label rest
  | .instr _ :: rest => target? label rest

section Runs

variable {ι σ : Type} {exec : ι → σ → Option (Effect σ)} {items rest : List (Item ι)} {s : σ}
  {out : Outcome σ}

/-- Runs of `items`, of which `rest` is still ahead. -/
inductive Runs (exec : ι → σ → Option (Effect σ)) (items : List (Item ι)) :
    List (Item ι) → σ → Outcome σ → Prop where
  | done {s : σ} : Runs exec items [] s (.through s)
  | bind {label : Nat} {rest : List (Item ι)} {s : σ} {out : Outcome σ} :
      Runs exec items rest s out → Runs exec items (.bind label :: rest) s out
  | next {i : ι} {rest : List (Item ι)} {s s' : σ} {out : Outcome σ} :
      exec i s = some (.next s') → Runs exec items rest s' out →
      Runs exec items (.instr i :: rest) s out
  | jump {i : ι} {label : Nat} {rest rest' : List (Item ι)} {s s' : σ} {out : Outcome σ} :
      exec i s = some (.branch label s') → target? label items = some rest' →
      Runs exec items rest' s' out → Runs exec items (.instr i :: rest) s out
  | leave {i : ι} {label : Nat} {rest : List (Item ι)} {s s' : σ} :
      exec i s = some (.branch label s') → target? label items = none →
      Runs exec items (.instr i :: rest) s (.branched label s')

/-- There is one way to run code. -/
theorem Runs.unique {out' : Outcome σ} (h : Runs exec items rest s out)
    (h' : Runs exec items rest s out') : out' = out := by
  induction h generalizing out' with
  | done =>
      cases h' with
      | done => rfl
  | bind _ ih =>
      cases h' with
      | bind h' => exact ih h'
  | next hexec _ ih =>
      cases h' with
      | next hexec' h' => rw [hexec] at hexec'; cases hexec'; exact ih h'
      | jump hexec' _ _ => rw [hexec] at hexec'; cases hexec'
      | leave hexec' _ => rw [hexec] at hexec'; cases hexec'
  | jump hexec htarget _ ih =>
      cases h' with
      | next hexec' _ => rw [hexec] at hexec'; cases hexec'
      | jump hexec' htarget' h' =>
          rw [hexec] at hexec'
          cases hexec'
          rw [htarget] at htarget'
          cases htarget'
          exact ih h'
      | leave hexec' htarget' =>
          rw [hexec] at hexec'
          cases hexec'
          rw [htarget] at htarget'
          cases htarget'
  | leave hexec htarget =>
      cases h' with
      | next hexec' _ => rw [hexec] at hexec'; cases hexec'
      | jump hexec' htarget' _ =>
          rw [hexec] at hexec'
          cases hexec'
          rw [htarget] at htarget'
          cases htarget'
      | leave hexec' _ => rw [hexec] at hexec'; cases hexec'; rfl

/-- Code ends in this way and no other. -/
def Ends (exec : ι → σ → Option (Effect σ)) (items : List (Item ι)) (s : σ) (out : Outcome σ) :
    Prop :=
  ∀ out', Runs exec items items s out' ↔ out' = out

theorem Runs.ends (h : Runs exec items items s out) : Ends exec items s out := by
  intro out'
  constructor
  · exact h.unique
  · rintro rfl
    exact h

/-- Straight-line code binds no label. -/
theorem target?_instrs (label : Nat) (is : List ι) : target? label (is.map .instr) = none := by
  induction is with
  | nil => rfl
  | cons i is ih => exact ih

end Runs

end Glue

end Crossing
