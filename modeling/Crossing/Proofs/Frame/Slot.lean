import Crossing.Proofs.Glue.Feasible
import Crossing.Proofs.Frame.Undone

/-
Slots of a frame. A register is stored to a slot or loaded from one, in 32
bits or in 64: a store writes the low bytes of the register and changes no
register, a load sets the register to what the slot holds and changes no
memory. What differs between the targets ends here; `Backend` is all that
the rest needs to know of one.
-/
namespace Crossing

-- ============================================================== memory

namespace Memory

theorem read_lt (m : Memory) (size : Nat) : ∀ addr, m.read addr size < 256 ^ size := by
  induction size with
  | zero => exact fun _ => Nat.one_pos
  | succ size ih =>
      intro addr
      have hfirst := (m.byte addr).toNat_lt
      have hrest := ih (addr + 1)
      rw [read, Nat.pow_succ']
      omega

/-- Only the low bytes of a number are written. -/
theorem write_mod (m : Memory) (addr : UInt64) (size v : Nat) :
    m.write addr size (v % 256 ^ size) = m.write addr size v := by
  simp only [write]
  congr 1
  funext a
  split
  · next hlt =>
      obtain ⟨k, hk⟩ : ∃ k, size = (a - addr).toNat + (k + 1) :=
        ⟨size - (a - addr).toNat - 1, by omega⟩
      apply UInt8.toNat_inj.mp
      have hdvd : 256 ∣ 256 ^ (k + 1) := Dvd.intro_left _ (Nat.pow_succ ..).symm
      rw [hk, Nat.pow_add, Nat.mod_mul_right_div_self, UInt8.toNat_ofNat', UInt8.toNat_ofNat']
      exact Nat.mod_mod_of_dvd _ hdvd
  · rfl

theorem toNat_read32 (m : Memory) (addr : UInt64) : (m.read32 addr).toNat = m.read addr 4 := by
  rw [read32, UInt32.toNat_ofNat']
  exact Nat.mod_eq_of_lt (m.read_lt 4 addr)

theorem toNat_read64 (m : Memory) (addr : UInt64) : (m.read64 addr).toNat = m.read addr 8 := by
  rw [read64, UInt64.toNat_ofNat']
  exact Nat.mod_eq_of_lt (m.read_lt 8 addr)

end Memory

-- ============================================================== backends

namespace Glue

/-- What slots see of a target: how operations become instructions, and what
instructions do to the state of a processor. -/
structure Backend where
  Instr : Type
  Cpu : Type
  registers : RegisterModel
  lower : Op → Nat → Except Violation (Emission Instr)
  step : Instr → Cpu → Option (Flow Cpu)
  sp : Cpu → UInt64
  memory : Cpu → Memory
  /-- What the register that a handle names holds. -/
  content : Cpu → Register → Nat

namespace Backend

variable (P : Backend)

/-- Two handles name registers of different places. -/
def Differ (r r' : Register) : Prop :=
  ∃ q q', P.registers.place r = .ok q ∧ P.registers.place r' = .ok q' ∧ q ≠ q'

/-- A store: `size` bytes of a register are in memory, and nothing else has
changed. -/
structure Stored (o : FrameOffset) (r : Register) (size : Nat) (s s' : P.Cpu) : Prop where
  memory : P.memory s'
    = (P.memory s).write (P.sp s + UInt64.ofNat o.value) size (P.content s r)
  sp : P.sp s' = P.sp s
  content : P.content s' = P.content s

/-- A load: a register holds what `size` bytes of memory hold, and other
registers are unchanged. -/
structure Loaded (r : Register) (o : FrameOffset) (size : Nat) (s s' : P.Cpu) : Prop where
  content : P.content s' r = (P.memory s).read (P.sp s + UInt64.ofNat o.value) size
  others : ∀ r', P.Differ r r' → P.content s' r' = P.content s r'
  sp : P.sp s' = P.sp s
  memory : P.memory s' = P.memory s

end Backend

end Glue

-- ============================================================== x86-64

namespace X86

open Glue Glue.X86

/-- The lowest quarter of an SSE register. -/
def Cpu.lowest (s : Cpu) (n : Fin 16) : UInt32 := UInt32.ofBitVec ((s.xmm n).setWidth 32)

/-- The effect of an instruction in straight-line code, with the accesses
to 32 bits that frames do without. -/
def slotStep : Instr → Cpu → Option (Flow Cpu)
  | .store .long mem src, s =>
      some (.next { s with memory := s.memory.write32 (s.address mem) (s.reg src).toUInt32 })
  | .storeScalar .single mem x, s =>
      x.index?.map fun n =>
        .next { s with memory := s.memory.write32 (s.address mem) (s.lowest n) }
  | .loadScalar .single x mem, s =>
      x.index?.map fun n =>
        .next (s.setXmm n ((s.memory.read32 (s.address mem)).toBitVec.setWidth 128))
  | i, s => step i s

def backend : Backend where
  Instr := Instr
  Cpu := Cpu
  registers := .x86
  lower := lower
  step := slotStep
  sp s := s.reg .rsp
  memory := Cpu.memory
  content := Cpu.content

theorem content_set {r r' : Register} {q : Reg} (hview : r.x86View = .ok (.cpu q))
    (h : backend.Differ r r') (s : Cpu) (v : UInt64) : (s.set q v).content r' = s.content r' := by
  obtain ⟨n, n', hr, hr', hne⟩ := h
  obtain ⟨w, hw, hr⟩ := bind_eq_ok hr
  obtain ⟨w', hw', hr'⟩ := bind_eq_ok hr'
  cases hview.symm.trans hw
  cases hr
  simp only [Cpu.content, hw']
  cases w' with
  | cpu q' =>
      cases hr'
      have hq : q' ≠ q := fun heq => hne (by rw [heq])
      simp only [Cpu.set_of_ne hq]
  | _ => rfl

theorem content_setXmm {r r' : Register} {n : Fin 16} (hview : r.x86View = .ok (.xmm n))
    (h : backend.Differ r r') (s : Cpu) (v : BitVec 128) :
    (s.setXmm n v).content r' = s.content r' := by
  obtain ⟨m, m', hr, hr', hne⟩ := h
  obtain ⟨w, hw, hr⟩ := bind_eq_ok hr
  obtain ⟨w', hw', hr'⟩ := bind_eq_ok hr'
  cases hview.symm.trans hw
  cases hr
  simp only [Cpu.content, hw']
  cases w' with
  | xmm n' =>
      cases hr'
      have hn : n' ≠ n := fun heq => hne (by rw [heq])
      simp only [Cpu.setXmm, if_neg hn]
  | _ => rfl

theorem frameMem_address (o : FrameOffset) : Yields (frameMem o) fun mem =>
    ∀ s : Cpu, s.address mem = s.reg .rsp + UInt64.ofNat o.value := by
  refine yields_bind fun d hd => yields_pure fun s => ?_
  unfold Offset.displacement at hd
  split at hd
  · next hlt =>
      cases hd
      exact address_rsp hlt s
  · cases hd

variable {r : Register} {size : Nat}

/-- A store writes the low bytes of a register. -/
theorem storeTo_spec (hr : Saveable r) (hsize : size = 4 ∨ size = 8) (mem : Mem) :
    Yields (storeTo mem r size) fun is => ∀ s : Cpu, follow slotStep is s
      = some (.next { s with memory := s.memory.write (s.address mem) size (s.content r) }) := by
  have hlong : ∀ (s : Cpu) v, s.memory.write (s.address mem) 4 (v % 2 ^ 32)
      = s.memory.write (s.address mem) 4 v := fun s v => s.memory.write_mod _ 4 v
  have hquad : ∀ (s : Cpu) v, s.memory.write (s.address mem) 8 (v % 2 ^ 64)
      = s.memory.write (s.address mem) 8 v := fun s v => s.memory.write_mod _ 8 v
  intro is h s
  rcases hr with ⟨q, -, hview⟩ | ⟨n, hview⟩
  · rw [storeTo, hview] at h
    rcases hsize with rfl | rfl
    · cases h
      simp only [follow, slotStep, Memory.write32, UInt64.toNat_toUInt32, hlong, Cpu.content, hview]
    · cases h
      simp only [follow, slotStep, step, exec, Memory.write64, Cpu.content, hview]
  · rw [storeTo, hview] at h
    have hindex : (Xmm.mk (UInt8.ofNat n)).index? = some n := index?_ofIndex n
    rcases hsize with rfl | rfl
    · cases h
      simp only [follow, slotStep, hindex, Option.map_some, Memory.write32, Cpu.lowest,
        UInt32.toNat_ofBitVec, BitVec.toNat_setWidth, hlong, Cpu.content, hview]
    · cases h
      simp only [follow, slotStep, step, hindex, Option.map_some, Memory.write64, Cpu.low,
        UInt64.toNat_ofBitVec, BitVec.toNat_setWidth, hquad, Cpu.content, hview]

/-- A load sets a register, whose other bytes it clears. -/
theorem loadFrom_spec (hr : Saveable r) (hsize : size = 4 ∨ size = 8) (mem : Mem) :
    Yields (loadFrom r mem size) fun is => ∀ s : Cpu, ∃ s', follow slotStep is s = some (.next s')
      ∧ s'.content r = s.memory.read (s.address mem) size
      ∧ (∀ r', backend.Differ r r' → s'.content r' = s.content r')
      ∧ s'.reg .rsp = s.reg .rsp ∧ s'.memory = s.memory := by
  intro is h s
  have hsmall := s.memory.read_lt size (s.address mem)
  rcases hr with ⟨q, hq, hview⟩ | ⟨n, hview⟩
  · rw [loadFrom, hview] at h
    have hset : ∀ v, ((s.set q v).content r) = v.toNat := fun v => by
      simp only [Cpu.content, hview, Cpu.set_self]
    rcases hsize with rfl | rfl
    · cases h
      refine ⟨_, rfl, ?_, fun r' hr' => content_set hview hr' s _, Cpu.set_of_ne hq.symm, rfl⟩
      rw [hset, UInt32.toNat_toUInt64, Memory.toNat_read32]
    · cases h
      refine ⟨_, rfl, ?_, fun r' hr' => content_set hview hr' s _, Cpu.set_of_ne hq.symm, rfl⟩
      rw [hset, Memory.toNat_read64]
  · rw [loadFrom, hview] at h
    have hindex : (Xmm.mk (UInt8.ofNat n)).index? = some n := index?_ofIndex n
    have hset : ∀ v, ((s.setXmm n v).content r) = v.toNat := fun v => by
      simp only [Cpu.content, hview, Cpu.setXmm, if_true]
    rcases hsize with rfl | rfl
    · cases h
      refine ⟨s.setXmm n ((s.memory.read32 (s.address mem)).toBitVec.setWidth 128), ?_, ?_,
        fun r' hr' => content_setXmm hview hr' s _, rfl, rfl⟩
      · simp only [follow, slotStep, hindex, Option.map_some]
      · rw [hset, BitVec.toNat_setWidth, UInt32.toNat_toBitVec, Memory.toNat_read32]
        exact Nat.mod_eq_of_lt (Nat.lt_trans hsmall (by decide))
    · cases h
      refine ⟨s.setXmm n ((s.memory.read64 (s.address mem)).toBitVec.setWidth 128), ?_, ?_,
        fun r' hr' => content_setXmm hview hr' s _, rfl, rfl⟩
      · simp only [follow, slotStep, step, hindex, Option.map_some]
      · rw [hset, BitVec.toNat_setWidth, UInt64.toNat_toBitVec, Memory.toNat_read64]
        exact Nat.mod_eq_of_lt (Nat.lt_trans hsmall (by decide))

theorem store_spec (hr : Saveable r) (hsize : size = 4 ∨ size = 8) (o : FrameOffset) (next : Nat) :
    Yields (lower (.store o r size) next) fun e => ∀ s : Cpu, follow slotStep e.instrs s
      = some (.next { s with
        memory := s.memory.write (s.reg .rsp + UInt64.ofNat o.value) size (s.content r) }) := by
  refine yields_bind fun mem hmem => yields_bind fun is his => yields_pure fun s => ?_
  rw [Emission.instrs_ofInstrs, ← frameMem_address o mem hmem]
  exact storeTo_spec hr hsize mem is his s

theorem load_spec (hr : Saveable r) (hsize : size = 4 ∨ size = 8) (o : FrameOffset) (next : Nat) :
    Yields (lower (.load r o size) next) fun e => ∀ s : Cpu, ∃ s',
      follow slotStep e.instrs s = some (.next s')
        ∧ s'.content r = s.memory.read (s.reg .rsp + UInt64.ofNat o.value) size
        ∧ (∀ r', backend.Differ r r' → s'.content r' = s.content r')
        ∧ s'.reg .rsp = s.reg .rsp ∧ s'.memory = s.memory := by
  refine yields_bind fun mem hmem => yields_bind fun is his => yields_pure fun s => ?_
  rw [Emission.instrs_ofInstrs, ← frameMem_address o mem hmem]
  exact loadFrom_spec hr hsize mem is his s

end X86

-- ================================================================= ARM64

namespace A64

open Glue Glue.A64

/-- A register that slots can hold, in whichever width: a core register
other than number 31, or a floating-point register. -/
def Storable (r : Register) : Prop :=
  (∃ q, q ≠ .sp ∧ (r.a64View = .ok (.x q) ∨ r.a64View = .ok (.w q)))
    ∨ ∃ n, r.a64View = .ok (.d n) ∨ r.a64View = .ok (.s n)

/-- The lowest quarter of a floating-point register, which is the register
in its 32-bit width. -/
def Cpu.lowest (s : Cpu) (n : Fin 32) : UInt32 := UInt32.ofBitVec ((s.v n).setWidth 32)

/-- The effect of an instruction in straight-line code, with the accesses
to 32 bits that frames do without. -/
def slotStep : Instr → Cpu → Option (Flow Cpu)
  | .strW rt rn offset, s =>
      let addr := s.x rn + UInt64.ofNat offset.offset
      some (.next { s with memory := s.memory.write32 addr (s.operand rt).toUInt32 })
  | .strS rt rn offset, s =>
      rt.index?.map fun n =>
        let addr := s.x rn + UInt64.ofNat offset.offset
        .next { s with memory := s.memory.write32 addr (s.lowest n) }
  | .ldrS rt rn offset, s =>
      rt.index?.map fun n =>
        let v := s.memory.read32 (s.x rn + UInt64.ofNat offset.offset)
        .next (s.setV n (v.toBitVec.setWidth 128))
  | i, s => step i s

def backend (lse : Bool) : Backend where
  Instr := Instr
  Cpu := Cpu
  registers := .arm64
  lower := lower lse
  step := slotStep
  sp s := s.x .sp
  memory := Cpu.memory
  content := Cpu.content

theorem content_core {r : Register} {q : Reg}
    (hview : r.a64View = .ok (.x q) ∨ r.a64View = .ok (.w q)) (s : Cpu) :
    s.content r = (s.x q).toNat := by
  rcases hview with hview | hview <;> simp only [Cpu.content, hview]

theorem content_fp {r : Register} {n : Fin 32}
    (hview : r.a64View = .ok (.d n) ∨ r.a64View = .ok (.s n)) (s : Cpu) :
    s.content r = (s.v n).toNat := by
  rcases hview with hview | hview <;> simp only [Cpu.content, hview]

theorem place_core {r : Register} {q : Reg}
    (hview : r.a64View = .ok (.x q) ∨ r.a64View = .ok (.w q)) : r.a64Place = .ok q.index.val := by
  rcases hview with hview | hview <;> rw [Register.a64Place, hview] <;> rfl

theorem place_fp {r : Register} {n : Fin 32}
    (hview : r.a64View = .ok (.d n) ∨ r.a64View = .ok (.s n)) : r.a64Place = .ok (32 + n.val) := by
  rcases hview with hview | hview <;> rw [Register.a64Place, hview] <;> rfl

theorem content_set {lse : Bool} {r r' : Register} {q : Reg}
    (hview : r.a64View = .ok (.x q) ∨ r.a64View = .ok (.w q))
    (h : (backend lse).Differ r r') (s : Cpu) (v : UInt64) :
    (s.set q v).content r' = s.content r' := by
  obtain ⟨n, n', hr, hr', hne⟩ := h
  cases (place_core hview).symm.trans hr
  have hcore : ∀ q', r'.a64View = .ok (.x q') ∨ r'.a64View = .ok (.w q') →
      (s.set q v).content r' = s.content r' := by
    intro q' hview'
    cases (place_core hview').symm.trans hr'
    have hq : ¬(q' = q ∧ q ≠ .zero) := fun heq => hne (by rw [heq.1])
    rw [content_core hview', content_core hview', Cpu.set_x, if_neg hq]
  obtain ⟨w', hw', -⟩ := bind_eq_ok hr'
  cases w' with
  | none => simp only [Cpu.content, hw']
  | x q' => exact hcore q' (.inl hw')
  | w q' => exact hcore q' (.inr hw')
  | d m => rw [content_fp (.inl hw'), content_fp (.inl hw')]; rfl
  | s m => rw [content_fp (.inr hw'), content_fp (.inr hw')]; rfl

theorem content_setV {lse : Bool} {r r' : Register} {n : Fin 32}
    (hview : r.a64View = .ok (.d n) ∨ r.a64View = .ok (.s n))
    (h : (backend lse).Differ r r') (s : Cpu) (v : BitVec 128) :
    (s.setV n v).content r' = s.content r' := by
  obtain ⟨m, m', hr, hr', hne⟩ := h
  cases (place_fp hview).symm.trans hr
  have hfp : ∀ n', r'.a64View = .ok (.d n') ∨ r'.a64View = .ok (.s n') →
      (s.setV n v).content r' = s.content r' := by
    intro n' hview'
    cases (place_fp hview').symm.trans hr'
    have hn : n' ≠ n := fun heq => hne (by rw [heq])
    rw [content_fp hview', content_fp hview']
    exact congrArg BitVec.toNat (if_neg hn)
  obtain ⟨w', hw', -⟩ := bind_eq_ok hr'
  cases w' with
  | none => simp only [Cpu.content, hw']
  | d n' => exact hfp n' (.inl hw')
  | s n' => exact hfp n' (.inr hw')
  | x q => rw [content_core (.inl hw'), content_core (.inl hw')]; rfl
  | w q => rw [content_core (.inr hw'), content_core (.inr hw')]; rfl

variable {r : Register} {q : Reg} {k : Fin 32} {size : Nat}

theorem storeTo_core (hview : r.a64View = .ok (.x q) ∨ r.a64View = .ok (.w q)) (n : Nat) :
    storeTo .sp n r 4 = (do return [.strW q .sp (← scaled 4 n)])
      ∧ storeTo .sp n r 8 = (do return [.strX q .sp (← scaled 8 n)]) := by
  rcases hview with hview | hview <;> rw [storeTo, storeTo, hview, scaled, scaled] <;>
    cases imm32 n <;> exact ⟨rfl, rfl⟩

theorem storeTo_fp (hview : r.a64View = .ok (.d k) ∨ r.a64View = .ok (.s k)) (n : Nat) :
    storeTo .sp n r 4 = (do return [.strS (.ofIndex k) .sp (← scaled 4 n)])
      ∧ storeTo .sp n r 8 = (do return [.strD (.ofIndex k) .sp (← scaled 8 n)]) := by
  rcases hview with hview | hview <;> rw [storeTo, storeTo, hview, scaled, scaled] <;>
    cases imm32 n <;> exact ⟨rfl, rfl⟩

theorem loadFrom_core (hview : r.a64View = .ok (.x q) ∨ r.a64View = .ok (.w q)) (n : Nat) :
    loadFrom r .sp n 4 = (do return [.ldrW q .sp (← scaled 4 n)])
      ∧ loadFrom r .sp n 8 = (do return [.ldrX q .sp (← scaled 8 n)]) := by
  rcases hview with hview | hview <;> rw [loadFrom, loadFrom, hview, scaled, scaled] <;>
    cases imm32 n <;> exact ⟨rfl, rfl⟩

theorem loadFrom_fp (hview : r.a64View = .ok (.d k) ∨ r.a64View = .ok (.s k)) (n : Nat) :
    loadFrom r .sp n 4 = (do return [.ldrS (.ofIndex k) .sp (← scaled 4 n)])
      ∧ loadFrom r .sp n 8 = (do return [.ldrD (.ofIndex k) .sp (← scaled 8 n)]) := by
  rcases hview with hview | hview <;> rw [loadFrom, loadFrom, hview, scaled, scaled] <;>
    cases imm32 n <;> exact ⟨rfl, rfl⟩

/-- A store writes the low bytes of a register. -/
theorem storeTo_spec (hr : Storable r) (hsize : size = 4 ∨ size = 8) (n : Nat) :
    Yields (storeTo .sp n r size) fun is => ∀ s : Cpu, follow slotStep is s
      = some (.next { s with
        memory := s.memory.write (s.x .sp + UInt64.ofNat n) size (s.content r) }) := by
  have hlong : ∀ (s : Cpu) addr v, s.memory.write addr 4 (v % 2 ^ 32) = s.memory.write addr 4 v :=
    fun s addr v => s.memory.write_mod addr 4 v
  have hquad : ∀ (s : Cpu) addr v, s.memory.write addr 8 (v % 2 ^ 64) = s.memory.write addr 8 v :=
    fun s addr v => s.memory.write_mod addr 8 v
  rcases hr with ⟨q, hq, hview⟩ | ⟨k, hview⟩
  · have hoperand : ∀ s : Cpu, s.operand q = s.x q := fun s => if_neg hq
    rcases hsize with rfl | rfl
    · rw [(storeTo_core hview n).1]
      refine yields_bind fun imm himm => yields_pure fun s => ?_
      simp only [follow, slotStep, scaled_offset himm, hoperand, Memory.write32,
        UInt64.toNat_toUInt32, hlong, content_core hview]
    · rw [(storeTo_core hview n).2]
      refine yields_bind fun imm himm => yields_pure fun s => ?_
      simp only [follow, slotStep, step, exec, scaled_offset himm, hoperand, Memory.write64,
        content_core hview]
  · rcases hsize with rfl | rfl
    · rw [(storeTo_fp hview n).1]
      refine yields_bind fun imm himm => yields_pure fun s => ?_
      simp only [follow, slotStep, index?_ofIndex, Option.map_some, scaled_offset himm,
        Memory.write32, Cpu.lowest, UInt32.toNat_ofBitVec, BitVec.toNat_setWidth, hlong, content_fp hview]
    · rw [(storeTo_fp hview n).2]
      refine yields_bind fun imm himm => yields_pure fun s => ?_
      simp only [follow, slotStep, step, index?_ofIndex, Option.map_some, scaled_offset himm,
        Memory.write64, Cpu.low, UInt64.toNat_ofBitVec, BitVec.toNat_setWidth, hquad,
        content_fp hview]

/-- A load sets a register, whose other bytes it clears. -/
theorem loadFrom_spec (lse : Bool) (hr : Storable r) (hsize : size = 4 ∨ size = 8) (n : Nat) :
    Yields (loadFrom r .sp n size) fun is => ∀ s : Cpu, ∃ s', follow slotStep is s = some (.next s')
      ∧ s'.content r = s.memory.read (s.x .sp + UInt64.ofNat n) size
      ∧ (∀ r', (backend lse).Differ r r' → s'.content r' = s.content r')
      ∧ s'.x .sp = s.x .sp ∧ s'.memory = s.memory := by
  have hsmall := fun s : Cpu => s.memory.read_lt size (s.x .sp + UInt64.ofNat n)
  rcases hr with ⟨q, hq, hview⟩ | ⟨k, hview⟩
  · have hsp : ∀ (s : Cpu) v, (s.set q v).x .sp = s.x .sp := fun s v =>
      if_neg fun h => hq h.1.symm
    have hset : ∀ (s : Cpu) v, (s.set q v).content r = v.toNat := fun s v => by
      rw [content_core hview, Cpu.set_x, if_pos ⟨rfl, hq⟩]
    rcases hsize with rfl | rfl
    · rw [(loadFrom_core hview n).1]
      refine yields_bind fun imm himm => yields_pure fun s => ?_
      refine ⟨_, rfl, ?_, fun r' hr' => content_set hview hr' s _, hsp s _, rfl⟩
      rw [hset, UInt32.toNat_toUInt64, Memory.toNat_read32, scaled_offset himm]
    · rw [(loadFrom_core hview n).2]
      refine yields_bind fun imm himm => yields_pure fun s => ?_
      refine ⟨_, rfl, ?_, fun r' hr' => content_set hview hr' s _, hsp s _, rfl⟩
      rw [hset, Memory.toNat_read64, scaled_offset himm]
  · have hset : ∀ (s : Cpu) v, (s.setV k v).content r = v.toNat := fun s v => by
      rw [content_fp hview]
      exact congrArg BitVec.toNat (if_pos rfl)
    rcases hsize with rfl | rfl
    · rw [(loadFrom_fp hview n).1]
      refine yields_bind fun imm himm => yields_pure fun s => ?_
      refine ⟨s.setV k ((s.memory.read32 (s.x .sp + UInt64.ofNat n)).toBitVec.setWidth 128), ?_, ?_,
        fun r' hr' => content_setV hview hr' s _, rfl, rfl⟩
      · simp only [follow, slotStep, index?_ofIndex, Option.map_some, scaled_offset himm]
      · rw [hset, BitVec.toNat_setWidth, UInt32.toNat_toBitVec, Memory.toNat_read32]
        exact Nat.mod_eq_of_lt (Nat.lt_trans (hsmall s) (by decide))
    · rw [(loadFrom_fp hview n).2]
      refine yields_bind fun imm himm => yields_pure fun s => ?_
      refine ⟨s.setV k ((s.memory.read64 (s.x .sp + UInt64.ofNat n)).toBitVec.setWidth 128), ?_, ?_,
        fun r' hr' => content_setV hview hr' s _, rfl, rfl⟩
      · simp only [follow, slotStep, step, index?_ofIndex, Option.map_some, scaled_offset himm]
      · rw [hset, BitVec.toNat_setWidth, UInt64.toNat_toBitVec, Memory.toNat_read64]
        exact Nat.mod_eq_of_lt (Nat.lt_trans (hsmall s) (by decide))

theorem store_spec (lse : Bool) (hr : Storable r) (hsize : size = 4 ∨ size = 8) (o : FrameOffset)
    (next : Nat) : Yields (lower lse (.store o r size) next) fun e => ∀ s : Cpu,
      follow slotStep e.instrs s = some (.next { s with
        memory := s.memory.write (s.x .sp + UInt64.ofNat o.value) size (s.content r) }) := by
  refine yields_bind fun is his => yields_pure fun s => ?_
  rw [Emission.instrs_ofInstrs]
  exact storeTo_spec hr hsize o.value is his s

theorem load_spec (lse : Bool) (hr : Storable r) (hsize : size = 4 ∨ size = 8) (o : FrameOffset)
    (next : Nat) : Yields (lower lse (.load r o size) next) fun e => ∀ s : Cpu, ∃ s',
      follow slotStep e.instrs s = some (.next s')
        ∧ s'.content r = s.memory.read (s.x .sp + UInt64.ofNat o.value) size
        ∧ (∀ r', (backend lse).Differ r r' → s'.content r' = s.content r')
        ∧ s'.x .sp = s.x .sp ∧ s'.memory = s.memory := by
  refine yields_bind fun is his => yields_pure fun s => ?_
  rw [Emission.instrs_ofInstrs]
  exact loadFrom_spec lse hr hsize o.value is his s

end A64

-- ========================================================== operations

namespace Glue

namespace Target

def backend : Target → Backend
  | x86_64 => X86.backend
  | arm64 lse => A64.backend lse

/-- A register that slots can hold: not the stack pointer. -/
def Storable : Target → Register → Prop
  | x86_64, r => X86.Saveable r
  | arm64 _, r => A64.Storable r

variable {t : Target} {r : Register} {size : Nat}

/-- Storing to a slot. -/
theorem store_spec (hr : t.Storable r) (hsize : size = 4 ∨ size = 8) (o : FrameOffset)
    (next : Nat) : Yields (t.backend.lower (.store o r size) next) fun e => ∀ s : t.backend.Cpu,
      Reaches t.backend.step e.instrs s (t.backend.Stored o r size s) := by
  cases t with
  | x86_64 => exact fun e he s => ⟨_, X86.store_spec hr hsize o next e he s, rfl, rfl, rfl⟩
  | arm64 lse => exact fun e he s => ⟨_, A64.store_spec lse hr hsize o next e he s, rfl, rfl, rfl⟩

/-- Loading from a slot. -/
theorem load_spec (hr : t.Storable r) (hsize : size = 4 ∨ size = 8) (o : FrameOffset) (next : Nat) :
    Yields (t.backend.lower (.load r o size) next) fun e => ∀ s : t.backend.Cpu,
      Reaches t.backend.step e.instrs s (t.backend.Loaded r o size s) := by
  cases t with
  | x86_64 =>
      intro e he s
      obtain ⟨s', hruns, hvalue, hothers, hsp, hmemory⟩ := X86.load_spec hr hsize o next e he s
      exact ⟨s', hruns, hvalue, hothers, hsp, hmemory⟩
  | arm64 lse =>
      intro e he s
      obtain ⟨s', hruns, hvalue, hothers, hsp, hmemory⟩ := A64.load_spec lse hr hsize o next e he s
      exact ⟨s', hruns, hvalue, hothers, hsp, hmemory⟩

theorem lower_of_encoded {op : Op} {next : Nat} :
    Yields (Assembler.lower t op next) fun _ => ∃ e, t.backend.lower op next = .ok e := by
  cases t with
  | x86_64 => exact yields_map fun e he => ⟨e, he⟩
  | arm64 lse => exact yields_map fun e he => ⟨e, he⟩

/-- An operation that stores to a slot or loads from one. -/
def Accessing (op : Op) : Prop :=
  (∃ o r size, op = .store o r size) ∨ ∃ r o size, op = .load r o size

/-- Accesses to slots need no labels: where one of them can be made, it can
be made everywhere. -/
theorem lower_slot {op : Op} (hop : Accessing op) {next : Nat} {e : Emission t.backend.Instr}
    (h : t.backend.lower op next = .ok e) (next' : Nat) : ∃ e', t.backend.lower op next' = .ok e' := by
  cases t with
  | x86_64 =>
      rcases hop with ⟨o, r, n, rfl⟩ | ⟨r, o, n, rfl⟩ <;>
        obtain ⟨mem, hmem, h⟩ := bind_eq_ok h <;> obtain ⟨is, his, -⟩ := bind_eq_ok h <;>
        simp only [backend, X86.backend, X86.lower, hmem, his, bind, Except.bind] <;>
        exact ⟨_, rfl⟩
  | arm64 lse =>
      rcases hop with ⟨o, r, n, rfl⟩ | ⟨r, o, n, rfl⟩ <;> obtain ⟨is, his, -⟩ := bind_eq_ok h <;>
        simp only [backend, A64.backend, A64.lower, his, bind, Except.bind] <;>
        exact ⟨_, rfl⟩

end Target

end Glue

end Crossing
