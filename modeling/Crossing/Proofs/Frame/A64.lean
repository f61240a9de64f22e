import Crossing.Glue.A64
import Crossing.Proofs.Frame.Basic
import Crossing.Proofs.Processor.A64
import Crossing.Proofs.Thread.Block
import Crossing.Proofs.Yields
import Mathlib.Data.List.Nodup

/-
Frames on ARM64. Core registers are saved at the upper end of a frame and
floating-point registers below them, each kind in pairs with an odd one out
at the end. Spilling and reloading walk a list in the same way, so one
statement about each does for both kinds (`Spills`, `Reloads`). The return
address is in the link register: the body has to keep it there, unless the
frame saves it.
-/
namespace Crossing.A64

open Glue Glue.A64

-- ========================================================= instructions

/-- The register that a floating-point operand names. -/
def VReg.index? (r : VReg) : Option (Fin 32) :=
  if h : r.number.toNat < 32 then some ⟨r.number.toNat, h⟩ else none

def VReg.ofIndex (n : Fin 32) : VReg := ⟨UInt8.ofNat n⟩

@[simp] theorem index?_ofIndex (n : Fin 32) : (VReg.ofIndex n).index? = some n := by
  have hn : (UInt8.ofNat n).toNat = n :=
    UInt8.toNat_ofNat_of_lt' (Nat.lt_trans n.isLt (by decide))
  unfold VReg.index? VReg.ofIndex
  simp only [hn]
  rw [dif_pos n.isLt]

namespace Cpu

/-- Sets a register where number 31 is the stack pointer. -/
def put (s : Cpu) (r : Reg) (v : UInt64) : Cpu :=
  { s with x := fun q => if q = r then v else s.x q }

def setV (s : Cpu) (n : Fin 32) (v : BitVec 128) : Cpu :=
  { s with v := fun m => if m = n then v else s.v m }

/-- The lower half of a floating-point register, which is the register in
its 64-bit width. -/
def low (s : Cpu) (n : Fin 32) : UInt64 := UInt64.ofBitVec ((s.v n).setWidth 64)

/-- Where a pair of words is. -/
def place (s : Cpu) (rn : Reg) (offset : PairOffset) : UInt64 :=
  s.x rn + UInt64.ofInt offset.offset

def storePair (s : Cpu) (addr v w : UInt64) : Cpu :=
  { s with memory := (s.memory.write64 addr v).write64 (addr + 8) w }

end Cpu

/-- The effect of an instruction in straight-line code: those that frames
are built from, and every other one that goes on to the next. A load of 64
bits clears the upper half of a floating-point register, and a pair is not
loaded into one register. -/
def step : Instr → Cpu → Option (Flow Cpu)
  | .addImm rd rn imm, s => some (.next (s.put rd (s.x rn + UInt64.ofNat imm.value.val)))
  | .subImm rd rn imm, s => some (.next (s.put rd (s.x rn - UInt64.ofNat imm.value.val)))
  | .addImmHigh rd rn imm, s =>
      some (.next (s.put rd (s.x rn + UInt64.ofNat (imm.value.val * 4096))))
  | .subImmHigh rd rn imm, s =>
      some (.next (s.put rd (s.x rn - UInt64.ofNat (imm.value.val * 4096))))
  | .stp a b rn offset, s =>
      some (.next (s.storePair (s.place rn offset) (s.operand a) (s.operand b)))
  | .ldp a b rn offset, s =>
      if a = b then none
      else
        some (.next ((s.set a (s.memory.read64 (s.place rn offset))).set b
          (s.memory.read64 (s.place rn offset + 8))))
  | .strD rt rn offset, s =>
      rt.index?.map fun n =>
        .next { s with memory := s.memory.write64 (s.x rn + UInt64.ofNat offset.offset) (s.low n) }
  | .ldrD rt rn offset, s =>
      rt.index?.map fun n =>
        let v := s.memory.read64 (s.x rn + UInt64.ofNat offset.offset)
        .next (s.setV n (v.toBitVec.setWidth 128))
  | .stpD a b rn offset, s =>
      match a.index?, b.index? with
      | some n, some m => some (.next (s.storePair (s.place rn offset) (s.low n) (s.low m)))
      | _, _ => none
  | .ldpD a b rn offset, s =>
      match a.index?, b.index? with
      | some n, some m =>
          if n = m then none
          else
            let v := s.memory.read64 (s.place rn offset)
            let w := s.memory.read64 (s.place rn offset + 8)
            some (.next ((s.setV n (v.toBitVec.setWidth 128)).setV m (w.toBitVec.setWidth 128)))
      | _, _ => none
  | .ret, s => some (.back (s.x .link) s)
  | i, s =>
      match exec i s with
      | some (.next s') => some (.next s')
      | _ => none

variable {B : UInt64} {s s' : Cpu}

-- ============================================================ addresses

/-- The offset of a pair, which an instruction holds as a count of words. -/
theorem pairOffset_ofInt {n : Nat} {offset : PairOffset} (h : PairOffset.ofInt n = .ok offset) :
    offset.offset = n := by
  unfold PairOffset.ofInt at h
  split at h
  · next hfits =>
    obtain ⟨hmod, -, hlast⟩ := hfits
    rw [← Except.ok.inj h, PairOffset.offset, BitVec.toInt_ofInt, Int.bmod_def]
    rw [Int.tmod_eq_emod_of_nonneg (by omega)] at hmod
    rw [Int.tdiv_eq_ediv_of_nonneg (by omega)]
    omega
  · cases h

theorem place_ofInt {n : Nat} (hn : n < 2 ^ 31) {offset : PairOffset}
    (h : PairOffset.ofInt (Int32.ofNat n).toInt = .ok offset) (hsp : s.x .sp = B) :
    s.place .sp offset = B + UInt64.ofNat n := by
  rw [Int32.toInt_ofNat_of_lt hn] at h
  have hword : UInt64.ofInt n = UInt64.ofNat n := by
    unfold UInt64.ofInt
    rw [show ((n : Int) % 2 ^ 64) = ((n % 2 ^ 64 : Nat) : Int) by simp, Int.toNat_natCast]
    exact UInt64.ofNat_mod_size
  rw [Cpu.place, hsp, pairOffset_ofInt h, hword]

theorem imm32_eq {n m : Nat} (h : imm32 n = .ok m) : n = m := by
  unfold imm32 at h
  split at h
  · exact Except.ok.inj h
  · cases h

/-- The offset of a scaled immediate, which an instruction holds as a
count. -/
theorem scaled_offset {scale n : Nat} {offset : Scaled scale} (h : scaled scale n = .ok offset) :
    offset.offset = n := by
  obtain ⟨m, hm, h⟩ := bind_eq_ok h
  obtain rfl := imm32_eq hm
  unfold Scaled.ofOffset at h
  split at h
  · split at h
    · next hmod =>
        rw [← Except.ok.inj h, Scaled.offset]
        exact Nat.div_mul_cancel (Nat.dvd_of_mod_eq_zero hmod)
    · cases h
  · cases h

-- ============================================================= spilling

/-- A pair of instructions that store registers, one at a time or two. -/
structure Spills {ρ : Type} (pair : ρ → ρ → Reg → PairOffset → Instr)
    (single : ρ → Reg → Scaled 8 → Instr) (value : Cpu → ρ → UInt64) : Prop where
  pair : ∀ s a b offset, step (pair a b .sp offset) s
    = some (.next (s.storePair (s.place .sp offset) (value s a) (value s b)))
  single : ∀ s a (offset : Scaled 8), step (single a .sp offset) s
    = some (.next { s with
      memory := s.memory.write64 (s.x .sp + UInt64.ofNat offset.offset) (value s a) })
  value : ∀ s m, value { s with memory := m } = value s

theorem spills_core : Spills .stp .strX Cpu.operand :=
  ⟨fun _ _ _ _ => rfl, fun _ _ _ => rfl, fun _ _ => rfl⟩

theorem spills_fp : Spills (fun n m => .stpD (.ofIndex n) (.ofIndex m))
    (fun n => .strD (.ofIndex n)) Cpu.low :=
  ⟨fun _ _ _ _ => by simp only [step, index?_ofIndex],
    fun _ _ _ => by simp only [step, index?_ofIndex, Option.map_some], fun _ _ => rfl⟩

/-- A pair of words, stored next to each other. -/
theorem storePair_spec (s : Cpu) (B : UInt64) {n : Nat} (hn : n + 16 ≤ 2 ^ 64) (v w : UInt64) :
    s.memory.Within (s.storePair (B + UInt64.ofNat n) v w).memory B n 16
      ∧ (s.storePair (B + UInt64.ofNat n) v w).memory.read64 (B + UInt64.ofNat n) = v
      ∧ (s.storePair (B + UInt64.ofNat n) v w).memory.read64 (B + UInt64.ofNat (n + 8)) = w := by
  have hfirst := Memory.within_write64 s.memory B n v
  have hsecond := Memory.within_write64 (s.memory.write64 (B + UInt64.ofNat n) v) B (n + 8) w
  simp only [Cpu.storePair, next_word]
  refine ⟨(hfirst.mono (Nat.le_refl _) (by omega)).trans (hsecond.mono (by omega) (by omega)), ?_,
    Memory.read64_write64 ..⟩
  rw [hsecond.read64 (.inl (Nat.le_refl _)) (by omega) (by omega), Memory.read64_write64]

/-- Spilling saves registers one above the other, and does nothing else. -/
theorem spill_spec {ρ : Type} {pair : ρ → ρ → Reg → PairOffset → Instr}
    {single : ρ → Reg → Scaled 8 → Instr} {value : Cpu → ρ → UInt64}
    (h : Spills pair single value) (n : Nat) (rs : List ρ) :
    Yields (inPairs pair single n rs) fun is => n + 8 * rs.length < 2 ^ 31 →
      ∀ s : Cpu, s.x .sp = B → ∃ m, follow step is s = some (.next { s with memory := m })
        ∧ s.memory.Within m B n (8 * rs.length) ∧ m.Saved B (value s) n rs := by
  fun_induction inPairs pair single n rs with
  | case1 n =>
      exact yields_pure fun _ s _ => ⟨s.memory, rfl, s.memory.within_refl _ _ _, trivial⟩
  | case2 n a =>
      refine yields_bind fun offset hoffset => yields_pure fun hfit s hsp => ?_
      refine ⟨s.memory.write64 (B + UInt64.ofNat n) (value s a), ?_,
        Memory.within_write64 _ _ _ _, Memory.read64_write64 .., trivial⟩
      rw [follow, h.single, hsp, scaled_offset hoffset]
      rfl
  | case3 n a b rest ih =>
      refine yields_bind fun offset hoffset => yields_bind fun is his => yields_pure ?_
      intro hfit s hsp
      have hlength : 8 * (a :: b :: rest).length = 8 * rest.length + 16 := by
        rw [List.length_cons, List.length_cons]
        omega
      rw [hlength] at hfit ⊢
      have hplace := place_ofInt (s := s) (by omega) hoffset hsp
      let s₁ := s.storePair (B + UInt64.ofNat n) (value s a) (value s b)
      obtain ⟨hfirst, hword, hword'⟩ := storePair_spec s B (show n + 16 ≤ 2 ^ 64 by omega)
        (value s a) (value s b)
      obtain ⟨m, hruns, hrest, hsaved⟩ := ih is his (by omega) s₁ hsp
      refine ⟨m, ?_, (hfirst.mono (Nat.le_refl _) (by omega)).trans
        (hrest.mono (by omega) (by omega)), ?_, ?_, ?_⟩
      · rw [follow, h.pair, hplace]
        exact hruns
      · rw [hrest.read64 (.inl (by omega)) (by omega) (by omega)]
        exact hword
      · rw [hrest.read64 (.inl (by omega)) (by omega) (by omega)]
        exact hword'
      · exact h.value s s₁.memory ▸ hsaved

-- =========================================================== reloading

/-- A pair of instructions that load registers, one at a time or two. -/
structure Reloads {ρ : Type} (pair : ρ → ρ → Reg → PairOffset → Instr)
    (single : ρ → Reg → Scaled 8 → Instr) (put : Cpu → ρ → UInt64 → Cpu) : Prop where
  pair : ∀ (s : Cpu) (a b : ρ) offset, a ≠ b → step (pair a b .sp offset) s
    = some (.next (put (put s a (s.memory.read64 (s.place .sp offset))) b
      (s.memory.read64 (s.place .sp offset + 8))))
  single : ∀ (s : Cpu) (a : ρ) (offset : Scaled 8), step (single a .sp offset) s
    = some (.next (put s a (s.memory.read64 (s.x .sp + UInt64.ofNat offset.offset))))
  sp : ∀ s a v, (put s a v).x .sp = s.x .sp
  memory : ∀ s a v, (put s a v).memory = s.memory

theorem reloads_core : Reloads .ldp .ldrX Cpu.set where
  pair s a b offset h := by simp only [step, if_neg h]
  single _ _ _ := rfl
  sp s a v := by
    rw [Cpu.set_x, if_neg]
    rintro ⟨rfl, hne⟩
    exact hne rfl
  memory _ _ _ := rfl

theorem reloads_fp : Reloads (fun n m => .ldpD (.ofIndex n) (.ofIndex m))
    (fun n => .ldrD (.ofIndex n)) (fun s n v => s.setV n (v.toBitVec.setWidth 128)) where
  pair s n m offset h := by simp only [step, index?_ofIndex, if_neg h]
  single s n offset := by simp only [step, index?_ofIndex, Option.map_some]
  sp _ _ _ := rfl
  memory _ _ _ := rfl

/-- Reloading sets each register to what is saved for it. -/
theorem reload_spec {ρ : Type} {pair : ρ → ρ → Reg → PairOffset → Instr}
    {single : ρ → Reg → Scaled 8 → Instr} {put : Cpu → ρ → UInt64 → Cpu}
    (h : Reloads pair single put) {f : ρ → UInt64} (n : Nat) (rs : List ρ) :
    Yields (inPairs pair single n rs) fun is => n + 8 * rs.length < 2 ^ 31 → rs.Nodup →
      ∀ s : Cpu, s.x .sp = B → s.memory.Saved B f n rs →
        follow step is s = some (.next (rs.foldl (fun s r => put s r (f r)) s)) := by
  fun_induction inPairs pair single n rs with
  | case1 n => exact yields_pure fun _ _ s _ _ => rfl
  | case2 n a =>
      refine yields_bind fun offset hoffset => yields_pure fun _ _ s hsp hsaved => ?_
      rw [follow, h.single, hsp, scaled_offset hoffset, hsaved.1]
      rfl
  | case3 n a b rest ih =>
      refine yields_bind fun offset hoffset => yields_bind fun is his => yields_pure ?_
      intro hfit hnodup s hsp hsaved
      rw [List.length_cons, List.length_cons] at hfit
      obtain ⟨hne, htail⟩ := List.nodup_cons.mp hnodup
      have hab : a ≠ b := fun heq => hne (heq ▸ List.mem_cons_self ..)
      have hplace := place_ofInt (s := s) (by omega) hoffset hsp
      rw [follow, h.pair s a b offset hab, hplace, next_word, hsaved.1, hsaved.2.1]
      refine ih is his (by omega) (List.nodup_cons.mp htail).2 _ ?_ ?_
      · rw [h.sp, h.sp, hsp]
      · rw [h.memory, h.memory]
        exact hsaved.2.2

/-- Core registers that are all set. -/
theorem foldl_set {f : Reg → UInt64} (rs : List Reg) (hrs : ∀ r ∈ rs, r ≠ .zero) :
    ∀ s : Cpu, (∀ q ∈ rs, (rs.foldl (fun s r => s.set r (f r)) s).x q = f q)
      ∧ (∀ q ∉ rs, (rs.foldl (fun s r => s.set r (f r)) s).x q = s.x q)
      ∧ (rs.foldl (fun s r => s.set r (f r)) s).v = s.v
      ∧ (rs.foldl (fun s r => s.set r (f r)) s).memory = s.memory := by
  induction rs with
  | nil => exact fun s => ⟨fun q hq => absurd hq (by simp), fun _ _ => rfl, rfl, rfl⟩
  | cons r rs ih =>
      intro s
      obtain ⟨hin, hout, hv, hmemory⟩ := ih (fun q hq => hrs q (List.mem_cons_of_mem r hq))
        (s.set r (f r))
      refine ⟨fun q hq => ?_, fun q hq => ?_, hv, hmemory⟩
      · by_cases hlater : q ∈ rs
        · exact hin q hlater
        · obtain rfl : q = r := (List.mem_cons.mp hq).resolve_right hlater
          rw [List.foldl_cons, hout q hlater, Cpu.set_x, if_pos ⟨rfl, hrs q hq⟩]
      · obtain ⟨hqr, hlater⟩ := not_or.mp (mt List.mem_cons.mpr hq)
        rw [List.foldl_cons, hout q hlater, Cpu.set_x, if_neg fun h => hqr h.1]

/-- Floating-point registers that are all set. -/
theorem foldl_setV {f : Fin 32 → BitVec 128} (ns : List (Fin 32)) :
    ∀ s : Cpu, (∀ n ∈ ns, (ns.foldl (fun s n => s.setV n (f n)) s).v n = f n)
      ∧ (∀ n ∉ ns, (ns.foldl (fun s n => s.setV n (f n)) s).v n = s.v n)
      ∧ (ns.foldl (fun s n => s.setV n (f n)) s).x = s.x
      ∧ (ns.foldl (fun s n => s.setV n (f n)) s).memory = s.memory := by
  induction ns with
  | nil => exact fun s => ⟨fun n hn => absurd hn (by simp), fun _ _ => rfl, rfl, rfl⟩
  | cons n ns ih =>
      intro s
      obtain ⟨hin, hout, hx, hmemory⟩ := ih (s.setV n (f n))
      refine ⟨fun m hm => ?_, fun m hm => ?_, hx, hmemory⟩
      · by_cases hlater : m ∈ ns
        · exact hin m hlater
        · obtain rfl : m = n := (List.mem_cons.mp hm).resolve_right hlater
          exact (hout m hlater).trans (if_pos rfl)
      · obtain ⟨hmn, hlater⟩ := not_or.mp (mt List.mem_cons.mpr hm)
        exact (hout m hlater).trans (if_neg hmn)

-- =================================================== the stack pointer

theorem put_put (s : Cpu) (r : Reg) (v w : UInt64) : (s.put r v).put r w = s.put r w := by
  simp only [Cpu.put]
  congr 1
  funext q
  split <;> rfl

theorem put_self (s : Cpu) (r : Reg) : s.put r (s.x r) = s := by
  simp only [Cpu.put]
  congr 1
  funext q
  split
  · next h => rw [h]
  · rfl

@[simp] theorem put_same (s : Cpu) (r : Reg) (v : UInt64) : (s.put r v).x r = v := by simp [Cpu.put]

theorem word_sub_sub (a b c : UInt64) : a - b - c = a - (b + c) := by
  simp only [UInt64.sub_eq_add_neg, UInt64.neg_add, UInt64.add_assoc]

/-- An immediate takes effect in two steps, or in one. -/
theorem byHalves_spec {run : Instr → Cpu → Option (Flow Cpu)} {high low : Reg → Reg → Imm12 → Instr}
    {op : UInt64 → UInt64 → UInt64}
    (hhigh : ∀ (s : Cpu) rd rn imm, run (high rd rn imm) s
      = some (.next (s.put rd (op (s.x rn) (UInt64.ofNat (imm.value.val * 4096))))))
    (hlow : ∀ (s : Cpu) rd rn imm, run (low rd rn imm) s
      = some (.next (s.put rd (op (s.x rn) (UInt64.ofNat imm.value.val)))))
    (hop : ∀ a b c, op (op a b) c = op a (b + c)) (rd rn : Reg) (imm : Imm24) (s : Cpu) :
    follow run (Instr.byHalves high low rd rn imm) s
      = some (.next (s.put rd (op (s.x rn) (UInt64.ofNat imm.value.val)))) := by
  have hvalue : imm.value.val / 4096 * 4096 + imm.value.val % 4096 = imm.value.val :=
    Nat.div_add_mod' ..
  simp only [Instr.byHalves, Instr.halves, Fin.ext_iff, Fin.val_zero]
  split
  · next hhi =>
    simp only [follow, hlow]
    rw [show imm.value.val % 4096 = imm.value.val by omega]
  · split
    · next hlo =>
      simp only [follow, hhigh]
      rw [hlo, Nat.add_zero] at hvalue
      rw [hvalue]
    · simp only [follow, hhigh, hlow, put_put, put_same, hop]
      rw [← UInt64.ofNat_add, hvalue]

theorem adjustStack_spec (grow : Bool) (size : Nat) :
    Yields (adjustStack grow size) fun is => ∀ s : Cpu, follow step is s
      = some (.next (s.put .sp (if grow then s.x .sp - UInt64.ofNat size
        else s.x .sp + UInt64.ofNat size))) := by
  refine yields_ite (fun hzero => yields_pure fun s => ?_) fun _ => ?_
  · have hsame : (if grow then s.x .sp - UInt64.ofNat size else s.x .sp + UInt64.ofNat size)
        = s.x .sp := by
      rw [hzero]
      split
      · exact UInt64.sub_zero _
      · exact UInt64.add_zero _
    rw [hsame, put_self]
    rfl
  · refine yields_pure_bind (yields_bind fun n hn => yields_bind fun imm himm => yields_pure ?_)
    obtain rfl := imm32_eq hn
    obtain rfl : size = imm.value.val := by
      unfold Imm24.ofNat at himm
      split at himm
      · rw [← Except.ok.inj himm]
      · cases himm
    intro s
    split
    · exact byHalves_spec (fun _ _ _ _ => rfl) (fun _ _ _ _ => rfl) word_sub_sub .sp .sp imm s
    · exact byHalves_spec (fun _ _ _ _ => rfl) (fun _ _ _ _ => rfl) UInt64.add_assoc .sp .sp imm s

theorem put_of_ne {s : Cpu} {v : UInt64} {q : Reg} (h : q ≠ .sp) : (s.put .sp v).x q = s.x q :=
  if_neg h

-- ============================================================ both halves

/-- Pairs of what a list is mapped to. -/
theorem inPairs_map {ρ ρ' : Type} (f : ρ → ρ') (pair : ρ' → ρ' → Reg → PairOffset → Instr)
    (single : ρ' → Reg → Scaled 8 → Instr) (n : Nat) (rs : List ρ) :
    inPairs pair single n (rs.map f)
      = inPairs (fun a b => pair (f a) (f b)) (fun a => single (f a)) n rs := by
  fun_induction inPairs (fun a b => pair (f a) (f b)) (fun a => single (f a)) n rs with
  | case1 n => rfl
  | case2 n a => rfl
  | case3 n a b rest ih => rw [List.map_cons, List.map_cons, inPairs, ih]

variable {cores : List Reg} {ns : List (Fin 32)} {low : Nat}

/-- What the upper end of a frame keeps, from distance `low` on. -/
structure Kept (cores : List Reg) (ns : List (Fin 32)) (low : Nat) (s : Cpu) (m : Memory)
    (B : UInt64) : Prop where
  fps : m.Saved B s.low low ns
  cores : m.Saved B s.x (low + 8 * ns.length) cores

theorem Kept.same {m m' : Memory} (h : Kept cores ns low s m B)
    (hsame : m.SameOn m' B low (low + 8 * ns.length + 8 * cores.length)) :
    Kept cores ns low s m' B where
  fps := h.fps.same ns (hsame.mono (Nat.le_refl _) (by omega))
  cores := h.cores.same cores (hsame.mono (by omega) (Nat.le_refl _))

/-- Room and spills keep the registers to save, and touch nothing below or
above them. -/
theorem keep_spec (hcores : ∀ q ∈ cores, q ≠ .zero)
    (hfit : low + 8 * ns.length + 8 * cores.length < 2 ^ 31) {room coreSpills fpSpills : List Instr}
    (hroom : adjustStack true (low + 8 * ns.length + 8 * cores.length) = .ok room)
    (hcore : inPairs .stp .strX (low + 8 * ns.length) cores = .ok coreSpills)
    (hfp : inPairs .stpD .strD low (ns.map .ofIndex) = .ok fpSpills) (s : Cpu)
    (hB : B = s.x .sp - UInt64.ofNat (low + 8 * ns.length + 8 * cores.length)) :
    Reaches step (room ++ coreSpills ++ fpSpills) s fun s₁ =>
      s₁.x .sp = B ∧ (∀ q, q ≠ .sp → s₁.x q = s.x q) ∧ s₁.v = s.v
        ∧ s.memory.Within s₁.memory B low (8 * ns.length + 8 * cores.length)
        ∧ Kept cores ns low s s₁.memory B := by
  have hmoved := adjustStack_spec true _ room hroom s
  rw [if_pos rfl, ← hB] at hmoved
  obtain ⟨m, hcoreRuns, hcoreOnly, hcoreSaved⟩ :=
    spill_spec spills_core _ cores coreSpills hcore hfit (s.put .sp B) (put_same s .sp B)
  rw [inPairs_map] at hfp
  obtain ⟨m', hfpRuns, hfpOnly, hfpSaved⟩ :=
    spill_spec spills_fp _ ns fpSpills hfp (by omega) { s.put .sp B with memory := m } (put_same s .sp B)
  refine ⟨{ s.put .sp B with memory := m' }, ?_, put_same s .sp B, fun q hq => put_of_ne hq, rfl,
    (hcoreOnly.mono (by omega) (by omega)).trans (hfpOnly.mono (Nat.le_refl _) (by omega)),
    hfpSaved, ?_⟩
  · rw [follow_append ((follow_append hmoved).trans hcoreRuns), hfpRuns]
  · -- the floating-point registers lie below
    refine Memory.saved_congr cores (fun q hq => ?_) (hcoreSaved.same cores
      (hfpOnly.sameOn (.inr (Nat.le_refl _)) (by omega) (by omega)))
    rw [Cpu.operand, if_neg (hcores q hq)]
    exact put_of_ne (hcores q hq)

/-- Loads bring back what is kept. -/
theorem restore_spec (hcores : ∀ q ∈ cores, q ≠ .zero) (hcoresOnce : cores.Nodup)
    (hnsOnce : ns.Nodup) (hfit : low + 8 * ns.length + 8 * cores.length < 2 ^ 31)
    {coreLoads fpLoads : List Instr}
    (hcore : inPairs .ldp .ldrX (low + 8 * ns.length) cores = .ok coreLoads)
    (hfp : inPairs .ldpD .ldrD low (ns.map .ofIndex) = .ok fpLoads) {s s₂ : Cpu}
    (hkept : Kept cores ns low s s₂.memory (s₂.x .sp)) :
    Reaches step (coreLoads ++ fpLoads) s₂ fun s₃ =>
      (∀ q ∈ cores, s₃.x q = s.x q) ∧ (∀ q ∉ cores, s₃.x q = s₂.x q)
        ∧ (∀ n ∈ ns, s₃.v n = (s.low n).toBitVec.setWidth 128) ∧ (∀ n ∉ ns, s₃.v n = s₂.v n)
        ∧ s₃.memory = s₂.memory := by
  have hcoreRuns := reload_spec reloads_core _ cores coreLoads hcore hfit hcoresOnce s₂ rfl
    hkept.cores
  obtain ⟨hin, hout, hv, hmemory⟩ := foldl_set (f := s.x) cores hcores s₂
  refine Reaches.append (Q := fun s₁ => (∀ q ∈ cores, s₁.x q = s.x q)
    ∧ (∀ q ∉ cores, s₁.x q = s₂.x q) ∧ s₁.v = s₂.v ∧ s₁.memory = s₂.memory)
    ⟨_, hcoreRuns, hin, hout, hv, hmemory⟩ fun s₁ ⟨hin₁, hout₁, hv₁, hmemory₁⟩ => ?_
  have hsp : s₁.x .sp = s₂.x .sp := hout₁ .sp fun hmem => hcores _ hmem rfl
  rw [inPairs_map] at hfp
  have hfpRuns := reload_spec reloads_fp _ ns fpLoads hfp (by omega) hnsOnce s₁ hsp
    (hmemory₁ ▸ hkept.fps)
  obtain ⟨hin', hout', hx, hmemory'⟩ :=
    foldl_setV (f := fun n => (s.low n).toBitVec.setWidth 128) ns s₁
  refine ⟨_, hfpRuns, fun q hq => ?_, fun q hq => ?_, hin', fun n hn => ?_, ?_⟩
  · rw [hx, hin₁ q hq]
  · rw [hx, hout₁ q hq]
  · rw [hout' n hn, hv₁]
  · rw [hmemory', hmemory₁]

-- ======================================================== saved registers

/-- The core register among those to save that a handle names. -/
def core? (r : Register) : Option Reg :=
  match r.a64View with
  | .ok (.x q) => some q
  | _ => none

/-- The floating-point register among those to save that a handle names. -/
def vreg? (r : Register) : Option (Fin 32) :=
  match r.a64View with
  | .ok (.d n) => some n
  | _ => none

theorem core?_eq {r : Register} {q : Reg} : core? r = some q ↔ r.a64View = .ok (.x q) := by
  unfold core?
  split <;> simp_all

theorem vreg?_eq {r : Register} {n : Fin 32} : vreg? r = some n ↔ r.a64View = .ok (.d n) := by
  unfold vreg?
  split <;> simp_all

theorem eq_xHandle {r : Register} {q : Reg} (h : r.a64View = .ok (.x q)) : r = q.xHandle := by
  unfold Register.a64View at h
  split_ifs at h with hnone hx hw hd hs <;> cases h
  exact congrArg Register.mk (Int.toNat_of_nonneg hx.1).symm

theorem eq_dHandle {r : Register} {n : Fin 32} (h : r.a64View = .ok (.d n)) : r = dHandle n := by
  unfold Register.a64View at h
  split_ifs at h with hnone hx hw hd hs <;> cases h
  refine congrArg Register.mk ?_
  show r.id = 64 + ((r.id.toNat - 64 : Nat) : Int)
  omega

variable {saves : List Register}

theorem core?_nodup (h : saves.Nodup) : (saves.filterMap core?).Nodup :=
  h.filterMap fun _ _ _ hr hr' =>
    (eq_xHandle (core?_eq.mp hr)).trans (eq_xHandle (core?_eq.mp hr')).symm

theorem vreg?_nodup (h : saves.Nodup) : (saves.filterMap vreg?).Nodup :=
  h.filterMap fun _ _ _ hr hr' =>
    (eq_dHandle (vreg?_eq.mp hr)).trans (eq_dHandle (vreg?_eq.mp hr')).symm

/-- Sorting takes every register into one of the two classes. -/
theorem splitSaves_spec (saves : List Register) :
    Yields (splitSaves saves) fun sorted => sorted.1 = saves.filterMap core?
      ∧ sorted.2 = (saves.filterMap vreg?).map .ofIndex
      ∧ (saves.filterMap core?).length + (saves.filterMap vreg?).length = saves.length := by
  induction saves with
  | nil => exact yields_pure ⟨rfl, rfl, rfl⟩
  | cons r saves ih =>
      refine yields_bind fun view hview => ?_
      cases view with
      | x q =>
          refine yields_bind fun ⟨xs, ds⟩ hsorted => yields_pure ?_
          obtain ⟨hcores, hfps, hlength⟩ := ih _ hsorted
          have hcore : core? r = some q := core?_eq.mpr hview
          have hvreg : vreg? r = none := by simp only [vreg?, hview]
          rw [List.filterMap_cons_some hcore, List.filterMap_cons_none hvreg]
          refine ⟨congrArg (q :: ·) hcores, hfps, ?_⟩
          rw [List.length_cons, List.length_cons]
          omega
      | d n =>
          refine yields_bind fun ⟨xs, ds⟩ hsorted => yields_pure ?_
          obtain ⟨hcores, hfps, hlength⟩ := ih _ hsorted
          have hcore : core? r = none := by simp only [core?, hview]
          have hvreg : vreg? r = some n := vreg?_eq.mpr hview
          rw [List.filterMap_cons_none hcore, List.filterMap_cons_some hvreg]
          refine ⟨hcores, congrArg (VReg.ofIndex n :: ·) hfps, ?_⟩
          rw [List.length_cons, List.length_cons]
          omega
      | none => exact yields_error _
      | w q => exact yields_error _
      | s n => exact yields_error _

theorem mem_cores {q : Reg} :
    q ∈ saves.filterMap core? ↔ ∃ r ∈ saves, r.a64View = .ok (.x q) := by
  simp only [List.mem_filterMap, core?_eq]

theorem mem_vregs {n : Fin 32} :
    n ∈ saves.filterMap vreg? ↔ ∃ r ∈ saves, r.a64View = .ok (.d n) := by
  simp only [List.mem_filterMap, vreg?_eq]

theorem core?_ne (h : ∀ r ∈ saves, r.a64View ≠ .ok (.x .sp)) :
    ∀ q ∈ saves.filterMap core?, q ≠ .sp := by
  rintro q hq rfl
  obtain ⟨r, hr, hview⟩ := mem_cores.mp hq
  exact h r hr hview

-- =============================================================== frames

/-- What a frame of `size` bytes is to the body of its method: the stack
pointer is at its lower end, and so is the method's register; the other
registers are as before, and so is memory outside. -/
structure Framed (size : Nat) (method : Register) (s s₁ : Cpu) : Prop where
  sp : s₁.x .sp = s.x .sp - UInt64.ofNat size
  x : ∀ q, q ≠ .sp → s₁.x q = s.x q
  v : s₁.v = s.v
  method : ∀ m, method.a64View = .ok (.x m) → s₁.memory.read64 (s₁.x .sp) = s₁.operand m
  memory : s.memory.Within s₁.memory (s₁.x .sp) 0 size

/-- A body that leaves the stack pointer where it was, and alone the upper
end of the frame, with the registers saved there; the link register too, if
it is not among these. -/
structure Respects (size : Nat) (saves : List Register) (s₁ s₂ : Cpu) : Prop where
  sp : s₂.x .sp = s₁.x .sp
  area : s₁.memory.SameOn s₂.memory (s₁.x .sp) (size - 8 * saves.length) size
  link : (∀ r ∈ saves, r.a64View ≠ .ok (.x .link)) → s₂.x .link = s₁.x .link

/-- A caller that called in state `s` is back: the stack pointer is where
it was, and registers that the frame saved are as they were,
floating-point registers in their 64-bit width. The marking register is up
to date if the thread may have been suspended. All else is as the body left
it. -/
structure Unframed (saves : List Register) (maySuspend : Bool) (s s₂ s₃ : Cpu) : Prop where
  sp : s₃.x .sp = s.x .sp
  cores : ∀ r ∈ saves, ∀ q, r.a64View = .ok (.x q) → ¬(maySuspend = true ∧ q = .marking) →
    s₃.x q = s.x q
  marking : maySuspend = true → s₃.x .marking
    = (s₃.memory.read32 (ThreadBlock.markingAt (s₃.x .thread))).toUInt64
  fps : ∀ r ∈ saves, ∀ n, r.a64View = .ok (.d n) → s₃.v n = ((s.v n).setWidth 64).setWidth 128
  otherCores : ∀ q, q ≠ .sp → ¬(maySuspend = true ∧ q = .marking) →
    (∀ r ∈ saves, r.a64View ≠ .ok (.x q)) → s₃.x q = s₂.x q
  otherFps : ∀ n, (∀ r ∈ saves, r.a64View ≠ .ok (.d n)) → s₃.v n = s₂.v n
  memory : s₃.memory = s₂.memory

/-- What a frame is built by. -/
theorem buildFrame_eq (low : Nat) (method : Register) :
    Yields (buildFrame (low + 8 * saves.length) method saves) fun is =>
      (saves.filterMap core?).length + (saves.filterMap vreg?).length = saves.length
        ∧ ∃ room coreSpills fpSpills publish, adjustStack true (low + 8 * saves.length) = .ok room
        ∧ inPairs .stp .strX (low + 8 * (saves.filterMap vreg?).length) (saves.filterMap core?)
          = .ok coreSpills
        ∧ inPairs .stpD .strD low ((saves.filterMap vreg?).map .ofIndex) = .ok fpSpills
        ∧ is = room ++ coreSpills ++ fpSpills ++ publish
        ∧ (method.isSome = false ∧ publish = []
          ∨ ∃ m, method.asX = .ok m ∧ publish = [.strX m .sp ⟨0⟩]) := by
  refine yields_ite (fun _ => yields_error _) fun _ => ?_
  refine yields_bind fun ⟨cores, fps⟩ hsorted => ?_
  obtain ⟨rfl, rfl, hlength⟩ := splitSaves_spec saves _ hsorted
  refine yields_ite (fun _ => yields_error _) fun _ => ?_
  refine yields_bind fun room hroom => yields_bind fun coreSpills hcore =>
    yields_bind fun fpSpills hfp => ?_
  rw [List.length_map] at hfp
  rw [show low + 8 * saves.length - (saves.filterMap core?).length * 8
    = low + 8 * (saves.filterMap vreg?).length by omega] at hcore hfp
  rw [show low + 8 * (saves.filterMap vreg?).length - (saves.filterMap vreg?).length * 8
    = low by omega] at hfp
  refine yields_ite (fun _ => yields_bind fun m hm => yields_pure ?_) fun hnone => yields_pure ?_
  · exact ⟨hlength, room, coreSpills, fpSpills, _, hroom, hcore, hfp, rfl, .inr ⟨m, hm, rfl⟩⟩
  · exact ⟨hlength, room, coreSpills, fpSpills, _, hroom, hcore, hfp, rfl,
      .inl ⟨Bool.eq_false_iff.mpr hnone, rfl⟩⟩

/-- What a frame is removed by. -/
theorem removeFrame_eq (low : Nat) (maySuspend : Bool) :
    Yields (removeFrame (low + 8 * saves.length) saves maySuspend) fun is =>
      (saves.filterMap core?).length + (saves.filterMap vreg?).length = saves.length
        ∧ ∃ coreLoads fpLoads room, adjustStack false (low + 8 * saves.length) = .ok room
        ∧ inPairs .ldp .ldrX (low + 8 * (saves.filterMap vreg?).length) (saves.filterMap core?)
          = .ok coreLoads
        ∧ inPairs .ldpD .ldrD low ((saves.filterMap vreg?).map .ofIndex) = .ok fpLoads
        ∧ is = coreLoads ++ fpLoads
          ++ (if maySuspend then [.ldrW .marking .thread markingImm] else [])
          ++ room ++ [.ret] := by
  refine yields_ite (fun _ => yields_error _) fun _ => ?_
  refine yields_bind fun ⟨cores, fps⟩ hsorted => ?_
  obtain ⟨rfl, rfl, hlength⟩ := splitSaves_spec saves _ hsorted
  refine yields_bind fun coreBase hcoreBase => yields_bind fun coreLoads hcore =>
    yields_bind fun fpBase hfpBase => yields_bind fun fpLoads hfp =>
    yields_bind fun room hroom => yields_pure ?_
  rw [show low + 8 * saves.length = low + 8 * (saves.filterMap vreg?).length
    + (saves.filterMap core?).length * 8 by omega, subWord_add] at hcoreBase
  cases hcoreBase
  rw [List.length_map, Nat.mul_comm 8, subWord_add] at hfpBase
  cases hfpBase
  exact ⟨hlength, coreLoads, fpLoads, room, hroom, hcore, hfp, rfl⟩

theorem isSome_of_view {r : Register} {q : Reg} (h : r.a64View = .ok (.x q)) :
    r.isSome = true := by
  unfold Register.a64View at h
  split at h
  · cases h
  · next hnone => simpa [Register.isNone, Register.isSome] using hnone

theorem a64View_of_asX {r : Register} {q : Reg} (h : r.asX = .ok q) :
    r.a64View = .ok (.x q) := by
  obtain ⟨view, hview, h⟩ := bind_eq_ok h
  cases view with
  | x q' => cases h; exact hview
  | _ => cases h

/-- Building a frame leaves the body what it needs, and keeps at the upper
end what removing the frame needs. -/
theorem build_spec {method : Register} (hsp : ∀ r ∈ saves, r.a64View ≠ .ok (.x .sp))
    (hsize : low + 8 * saves.length < 2 ^ 31) (hroom : method.isSome = true → 8 ≤ low)
    {is : List Instr} (h : buildFrame (low + 8 * saves.length) method saves = .ok is) (s : Cpu) :
    Reaches step is s fun s₁ => Framed (low + 8 * saves.length) method s s₁
      ∧ Kept (saves.filterMap core?) (saves.filterMap vreg?) low s s₁.memory (s₁.x .sp) := by
  obtain ⟨hlength, room, coreSpills, fpSpills, publish, hadjust, hcore, hfp, rfl, hpublish⟩ :=
    buildFrame_eq low method is h
  have hwhole : low + 8 * saves.length
      = low + 8 * (saves.filterMap vreg?).length + 8 * (saves.filterMap core?).length := by omega
  rw [hwhole] at hadjust hsize ⊢
  refine (keep_spec (core?_ne hsp) hsize hadjust hcore hfp s rfl).append
    fun s₁ ⟨hB, hx, hv, honly, hkept⟩ => ?_
  rw [← hB] at honly hkept
  rcases hpublish with ⟨hnone, rfl⟩ | ⟨r, hr, rfl⟩
  · refine Reaches.nil ⟨⟨hB, hx, hv, fun r hr => ?_, honly.mono (Nat.zero_le _) (by omega)⟩, hkept⟩
    rw [isSome_of_view hr] at hnone
    cases hnone
  · have hview := a64View_of_asX hr
    have hlow := hroom (isSome_of_view hview)
    have hwrite := Memory.within_write64 s₁.memory (s₁.x .sp) 0 (s₁.operand r)
    refine Reaches.one rfl ⟨⟨hB, hx, hv, fun r' hr' => ?_,
      (honly.mono (Nat.zero_le _) (by omega)).trans (hwrite.mono (Nat.le_refl _) (by omega))⟩,
      hkept.same (hwrite.sameOn (.inr (by omega)) (by omega) (by omega))⟩
    obtain rfl : r = r' := View.x.inj (Except.ok.inj (hview.symm.trans hr'))
    have hat : s₁.x .sp + UInt64.ofNat 0 = s₁.x .sp := UInt64.add_zero _
    show (s₁.memory.write64 (s₁.x .sp + UInt64.ofNat 0) (s₁.operand r)).read64 (s₁.x .sp) = _
    rw [hat, Memory.read64_write64]
    rfl

/-- The marking register is reloaded from the thread, or left alone. -/
theorem refresh_spec (maySuspend : Bool) (s : Cpu) :
    Reaches step (if maySuspend then [.ldrW .marking .thread markingImm] else []) s fun s' =>
      (maySuspend = true →
          s'.x .marking = (s.memory.read32 (ThreadBlock.markingAt (s.x .thread))).toUInt64)
        ∧ (∀ q, ¬(maySuspend = true ∧ q = .marking) → s'.x q = s.x q)
        ∧ s'.v = s.v ∧ s'.memory = s.memory := by
  cases maySuspend with
  | false => exact Reaches.nil ⟨nofun, fun _ _ => rfl, rfl, rfl⟩
  | true =>
      refine Reaches.one rfl ⟨fun _ => ?_, fun q hq => ?_, rfl, rfl⟩
      · rw [Cpu.set_x, if_pos ⟨rfl, by decide⟩]
        rfl
      · rw [Cpu.set_x, if_neg fun h => hq ⟨rfl, h.1⟩]

/-- Removing a frame brings back what is kept, and returns. -/
theorem remove_spec (hsp : ∀ r ∈ saves, r.a64View ≠ .ok (.x .sp)) (honce : saves.Nodup)
    (hsize : low + 8 * saves.length < 2 ^ 31) {maySuspend : Bool} {is : List Instr}
    (h : removeFrame (low + 8 * saves.length) saves maySuspend = .ok is) {s s₂ : Cpu}
    (hB : s.x .sp = s₂.x .sp + UInt64.ofNat (low + 8 * saves.length))
    (hlink : (∀ r ∈ saves, r.a64View ≠ .ok (.x .link)) → s₂.x .link = s.x .link)
    (hkept : Kept (saves.filterMap core?) (saves.filterMap vreg?) low s s₂.memory (s₂.x .sp)) :
    ∃ s₃, follow step is s₂ = some (.back (s.x .link) s₃) ∧ Unframed saves maySuspend s s₂ s₃ := by
  obtain ⟨hlength, coreLoads, fpLoads, room, hadjust, hcore, hfp, rfl⟩ :=
    removeFrame_eq low maySuspend is h
  have hfit : low + 8 * (saves.filterMap vreg?).length + 8 * (saves.filterMap core?).length
      < 2 ^ 31 := by omega
  obtain ⟨s₃, hloads, hcores, hothers, hfps, hotherFps, hmemory⟩ := restore_spec (core?_ne hsp)
    (core?_nodup honce) (vreg?_nodup honce) hfit hcore hfp hkept
  obtain ⟨s₄, hrefresh, hmarking, hx, hv, hmemory'⟩ := refresh_spec maySuspend s₃
  have hmoved := adjustStack_spec false _ room hadjust s₄
  have hfree : ∀ q, (∀ r ∈ saves, r.a64View ≠ .ok (.x q)) → q ∉ saves.filterMap core? := by
    intro q hq hmem
    obtain ⟨r, hr, hview⟩ := mem_cores.mp hmem
    exact hq r hr hview
  have hsp₄ : s₄.x .sp = s₂.x .sp := by
    rw [hx .sp fun h => absurd h.2 (by decide), hothers .sp (hfree .sp hsp)]
  have hlink₄ : s₄.x .link = s.x .link := by
    rw [hx .link fun h => absurd h.2 (by decide)]
    by_cases hmem : Reg.link ∈ saves.filterMap core?
    · exact hcores .link hmem
    · rw [hothers .link hmem]
      exact hlink fun r hr hview => hmem (mem_cores.mpr ⟨r, hr, hview⟩)
  rw [if_neg Bool.false_ne_true, hsp₄, ← hB] at hmoved
  refine ⟨s₄.put .sp (s.x .sp), ?_, ⟨put_same .., fun r hr q hq hne => ?_, fun hsuspend => ?_,
    fun r hr n hn => ?_, fun q hq hne hnone => ?_, fun n hnone => ?_, ?_⟩⟩
  · have hruns := (follow_append ((follow_append hloads).trans hrefresh)).trans hmoved
    rw [follow_append hruns, follow]
    simp only [step]
    rw [put_of_ne (by decide), hlink₄]
  · have hmem := mem_cores.mpr ⟨r, hr, hq⟩
    rw [put_of_ne (core?_ne hsp q hmem), hx q hne, hcores q hmem]
  · rw [put_of_ne (by decide), put_of_ne (by decide), hmarking hsuspend,
      hx .thread fun h => absurd h.2 (by decide)]
    show _ = (s₄.memory.read32 _).toUInt64
    rw [hmemory']
  · show s₄.v n = _
    rw [hv, hfps n (mem_vregs.mpr ⟨r, hr, hn⟩)]
    rfl
  · rw [put_of_ne hq, hx q hne, hothers q (hfree q hnone)]
  · show s₄.v n = _
    rw [hv, hotherFps n fun hmem => ?_]
    obtain ⟨r, hr, hview⟩ := mem_vregs.mp hmem
    exact hnone r hr hview
  · show s₄.memory = _
    rw [hmemory', hmemory]

/-- A frame can be undone: it is built with everything in its place, and
removed again after any body that respects it. -/
theorem frame_spec {size : Nat} {method : Register} {maySuspend : Bool}
    (hsp : ∀ r ∈ saves, r.a64View ≠ .ok (.x .sp)) (honce : saves.Nodup) (hsize : size < 2 ^ 31)
    (hroom : 8 * saves.length + (if method.isSome then 8 else 0) ≤ size)
    {build remove : List Instr} (hbuild : buildFrame size method saves = .ok build)
    (hremove : removeFrame size saves maySuspend = .ok remove) (s : Cpu) :
    Reaches step build s fun s₁ => Framed size method s s₁
      ∧ ∀ s₂, Respects size saves s₁ s₂ →
        ∃ s₃, follow step remove s₂ = some (.back (s.x .link) s₃)
          ∧ Unframed saves maySuspend s s₂ s₃ := by
  obtain ⟨low, rfl⟩ : ∃ low, size = low + 8 * saves.length := ⟨size - 8 * saves.length, by omega⟩
  have hlow : method.isSome = true → 8 ≤ low := by
    intro hsome
    rw [if_pos hsome] at hroom
    omega
  refine (build_spec hsp hsize hlow hbuild s).mono fun s₁ ⟨hframed, hkept⟩ =>
    ⟨hframed, fun s₂ hrespects => ?_⟩
  have harea := hrespects.area
  rw [Nat.add_sub_cancel] at harea
  obtain ⟨hlength, -⟩ := removeFrame_eq low maySuspend remove hremove
  refine remove_spec hsp honce hsize hremove ?_ (fun hfree => ?_) ?_
  · rw [hrespects.sp, hframed.sp, UInt64.sub_add_cancel]
  · rw [hrespects.link hfree, hframed.x .link (by decide)]
  · rw [hrespects.sp]
    exact hkept.same (harea.mono (Nat.le_refl _) (by omega))

end Crossing.A64
