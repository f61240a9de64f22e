import Crossing.Glue.X86
import Crossing.Proofs.Frame.Basic
import Crossing.Proofs.Processor.X86
import Crossing.Proofs.Yields

/-
Frames on x86-64. The frame reaches from the stack pointer of the method's
body up to and including the return address; the pushed registers are right
below the return address, and the SSE registers below those, both in the
order of the list. Building works its way down and removing works its way
up, and each of them computes places on its own: `Saved` lists with one
base are where the two meet.
-/
namespace Crossing.X86

open Glue Glue.X86

-- ========================================================= instructions

/-- The SSE register that an operand names. -/
def Xmm.index? (x : Xmm) : Option (Fin 16) :=
  if h : x.number.toNat < 16 then some ⟨x.number.toNat, h⟩ else none

def Xmm.ofIndex (n : Fin 16) : Xmm := ⟨UInt8.ofNat n⟩

namespace Cpu

theorem set_self (s : Cpu) (r : Reg) (v : UInt64) : (s.set r v).reg r = v := by simp [set]

theorem set_of_ne {s : Cpu} {r q : Reg} {v : UInt64} (h : q ≠ r) : (s.set r v).reg q = s.reg q := by
  simp [set, h]

def setXmm (s : Cpu) (n : Fin 16) (v : BitVec 128) : Cpu :=
  { s with xmm := fun m => if m = n then v else s.xmm m }

/-- The lower half of an SSE register, which is all a frame keeps of it. -/
def low (s : Cpu) (n : Fin 16) : UInt64 := UInt64.ofBitVec ((s.xmm n).setWidth 64)

end Cpu

/-- The effect of an instruction in straight-line code: those that frames
are built from, and every other one that goes on to the next. A scalar load
clears the upper half of its register. -/
def step : Instr → Cpu → Option (Flow Cpu)
  | .push r, s =>
      let top := s.reg .rsp - 8
      some (.next { s.set .rsp top with memory := s.memory.write64 top (s.reg r) })
  | .pop r, s =>
      let v := s.memory.read64 (s.reg .rsp)
      some (.next ((s.set .rsp (s.reg .rsp + 8)).set r v))
  | .arith .add r imm, s =>
      let v := s.reg r + imm.toInt64.toUInt64
      some (.next { s.set r v with zeroFlag := v = 0 })
  | .arith .sub r imm, s =>
      let v := s.reg r - imm.toInt64.toUInt64
      some (.next { s.set r v with zeroFlag := v = 0 })
  | .storeScalar .double mem x, s =>
      x.index?.map fun n =>
        .next { s with memory := s.memory.write64 (s.address mem) (s.low n) }
  | .loadScalar .double x mem, s =>
      x.index?.map fun n =>
        .next (s.setXmm n ((s.memory.read64 (s.address mem)).toBitVec.setWidth 128))
  | .ret, s =>
      some (.back (s.memory.read64 (s.reg .rsp)) (s.set .rsp (s.reg .rsp + 8)))
  | i, s =>
      match exec i s with
      | some (.next s') => some (.next s')
      | _ => none

/-- An immediate that is no negative number. -/
theorem immediate_ofNat {n : Nat} (h : n < 2 ^ 31) :
    (Int32.ofNat n).toInt64.toUInt64 = UInt64.ofNat n := by
  have hwide : (Int32.ofNat n).toInt64 = Int64.ofNat n := by
    apply Int64.toInt_inj.mp
    rw [Int32.toInt_toInt64, Int32.toInt_ofNat_of_lt h, Int64.toInt_ofNat_of_lt (by omega)]
  rw [hwide]
  rfl

theorem offset_sub (B : UInt64) (n : Nat) : B + UInt64.ofNat (n + 8) - 8 = B + UInt64.ofNat n := by
  rw [← next_word, UInt64.add_sub_cancel]

theorem address_rsp {n : Nat} (h : n < 2 ^ 31) (s : Cpu) :
    s.address (.base .rsp (Int32.ofNat n)) = s.reg .rsp + UInt64.ofNat n := by
  rw [Cpu.address, immediate_ofNat h]

@[simp] theorem index?_ofIndex (n : Fin 16) : (Xmm.ofIndex n).index? = some n := by
  have hn : (UInt8.ofNat n).toNat = n := UInt8.toNat_ofNat_of_lt' (Nat.lt_trans n.isLt (by decide))
  unfold Xmm.index? Xmm.ofIndex
  simp only [hn]
  rw [dif_pos n.isLt]

-- ============================================================ what moves

variable {B : UInt64} {s s' s'' : Cpu}

/-- Only the stack pointer, the flag and `size` bytes at distance `at_`
from `B` may have changed. -/
structure Spilled (B : UInt64) (at_ size : Nat) (s s' : Cpu) : Prop where
  reg : ∀ q, q ≠ .rsp → s'.reg q = s.reg q
  xmm : s'.xmm = s.xmm
  gs : s'.gs = s.gs
  memory : s.memory.Within s'.memory B at_ size

theorem spilled_refl (B : UInt64) (at_ size : Nat) (s : Cpu) : Spilled B at_ size s s :=
  ⟨fun _ _ => rfl, rfl, rfl, s.memory.within_refl B at_ size⟩

theorem Spilled.trans {at_ size : Nat} (h : Spilled B at_ size s s')
    (h' : Spilled B at_ size s' s'') : Spilled B at_ size s s'' where
  reg q hq := (h'.reg q hq).trans (h.reg q hq)
  xmm := h'.xmm.trans h.xmm
  gs := h'.gs.trans h.gs
  memory := h.memory.trans h'.memory

theorem Spilled.mono {at_ size at' size' : Nat} (h : Spilled B at_ size s s') (hlo : at' ≤ at_)
    (hhi : at_ + size ≤ at' + size') : Spilled B at' size' s s' where
  reg := h.reg
  xmm := h.xmm
  gs := h.gs
  memory := h.memory.mono hlo hhi

-- ============================================================== building

theorem step_push (at_ : Nat) (r : Reg) (hsp : s.reg .rsp = B + UInt64.ofNat (at_ + 8)) :
    ∃ s', step (.push r) s = some (.next s') ∧ s'.reg .rsp = B + UInt64.ofNat at_
      ∧ Spilled B at_ 8 s s' ∧ s'.memory.read64 (B + UInt64.ofNat at_) = s.reg r := by
  have htop : s.reg .rsp - 8 = B + UInt64.ofNat at_ := by rw [hsp, offset_sub]
  refine ⟨_, rfl, htop, ⟨fun q hq => Cpu.set_of_ne hq, rfl, rfl, ?_⟩, ?_⟩
  · simp only [htop]
    exact Memory.within_write64 _ _ _ _
  · simp only [htop]
    exact Memory.read64_write64 ..

/-- Pushing registers saves them below where the stack pointer was, the
last one lowest. -/
theorem push_spec (rs : List Reg) :
    ∀ {s : Cpu} {at_ : Nat}, s.reg .rsp = B + UInt64.ofNat (at_ + 8 * rs.length) →
      (∀ r ∈ rs, r ≠ .rsp) → at_ + 8 * rs.length ≤ 2 ^ 64 →
      Reaches step (rs.map .push) s fun s' => s'.reg .rsp = B + UInt64.ofNat at_
        ∧ Spilled B at_ (8 * rs.length) s s' ∧ s'.memory.Saved B s.reg at_ rs.reverse := by
  induction rs with
  | nil =>
      intro s at_ hsp _ _
      exact Reaches.nil ⟨hsp, spilled_refl _ _ _ s, trivial⟩
  | cons r rs ih =>
      intro s at_ hsp hrs hfit
      have hlength : 8 * (r :: rs).length = 8 * rs.length + 8 := by
        rw [List.length_cons, Nat.mul_succ]
      rw [hlength] at hsp hfit ⊢
      obtain ⟨s₁, hpush, hsp₁, hfirst, hword⟩ := step_push (at_ + 8 * rs.length) r hsp
      refine Reaches.cons hpush ((ih hsp₁ (fun q hq => hrs q (List.mem_cons_of_mem r hq))
        (by omega)).mono ?_)
      rintro s' ⟨hsp', hspilled, hsaved⟩
      refine ⟨hsp', (hfirst.mono (by omega) (by omega)).trans
        (hspilled.mono (Nat.le_refl _) (by omega)), ?_⟩
      rw [List.reverse_cons, Memory.saved_append, List.length_reverse]
      refine ⟨Memory.saved_congr _ (fun q hq => ?_) hsaved, ?_, trivial⟩
      · exact hfirst.reg q (hrs q (List.mem_cons_of_mem r (List.mem_reverse.mp hq)))
      · -- what is pushed later lies below
        rw [hspilled.memory.read64 (.inr (Nat.le_refl _)) hfit (by omega), hword]

theorem step_store (at_ : Nat) (hat : at_ < 2 ^ 31) (hsp : s.reg .rsp = B) (n : Fin 16) :
    ∃ s', step (.storeScalar .double (.base .rsp (Int32.ofNat at_)) (.ofIndex n)) s
        = some (.next s')
      ∧ s'.reg = s.reg ∧ Spilled B at_ 8 s s'
      ∧ s'.memory.read64 (B + UInt64.ofNat at_) = s.low n := by
  have haddress := address_rsp hat s
  rw [hsp] at haddress
  refine ⟨{ s with memory := s.memory.write64 (B + UInt64.ofNat at_) (s.low n) }, ?_, rfl,
    ⟨fun _ _ => rfl, rfl, rfl, Memory.within_write64 _ _ _ _⟩, Memory.read64_write64 ..⟩
  simp only [step, index?_ofIndex, Option.map_some, haddress]

/-- Spilling SSE registers saves their lower halves, the last one lowest. -/
theorem spill_spec (ns : List (Fin 16)) :
    ∀ {at_ : Nat}, at_ + 8 * ns.length < 2 ^ 31 →
      ∃ is, spillXmms (at_ + 8 * ns.length) (ns.map .ofIndex) = .ok is
        ∧ ∀ s : Cpu, s.reg .rsp = B → Reaches step is s fun s' => s'.reg = s.reg
          ∧ Spilled B at_ (8 * ns.length) s s' ∧ s'.memory.Saved B s.low at_ ns.reverse := by
  induction ns with
  | nil => exact fun _ => ⟨[], rfl, fun s _ => Reaches.nil ⟨rfl, spilled_refl _ _ _ s, trivial⟩⟩
  | cons n ns ih =>
      intro at_ hfit
      have hlength : 8 * (n :: ns).length = 8 * ns.length + 8 := by
        rw [List.length_cons, Nat.mul_succ]
      rw [hlength] at hfit ⊢
      obtain ⟨is, his, hruns⟩ := ih (show at_ + 8 * ns.length < 2 ^ 31 by omega)
      refine ⟨.storeScalar .double (.base .rsp (Int32.ofNat (at_ + 8 * ns.length)))
        (.ofIndex n) :: is, ?_, fun s hsp => ?_⟩
      · rw [List.map_cons, spillXmms, ← Nat.add_assoc, subWord_add]
        simp only [bind, Except.bind, his]
        rfl
      · obtain ⟨s₁, hstore, hreg, hfirst, hword⟩ :=
          step_store (at_ + 8 * ns.length) (by omega) hsp n
        refine Reaches.cons hstore ((hruns s₁ (hreg ▸ hsp)).mono ?_)
        rintro s' ⟨hreg', hspilled, hsaved⟩
        refine ⟨hreg'.trans hreg, (hfirst.mono (by omega) (by omega)).trans
          (hspilled.mono (Nat.le_refl _) (by omega)), ?_⟩
        rw [List.reverse_cons, Memory.saved_append, List.length_reverse]
        refine ⟨Memory.saved_congr _ (fun q _ => ?_) hsaved, ?_, trivial⟩
        · rw [Cpu.low, Cpu.low, hfirst.xmm]
        · rw [hspilled.memory.read64 (.inr (Nat.le_refl _)) (by omega) (by omega), hword]

/-- Moving the stack pointer, by nothing if there is nothing to move by. -/
theorem room_spec {op : Arith} {v : UInt64} {n : Nat} (hn : n < 2 ^ 31)
    (hop : op = .sub ∧ v = s.reg .rsp - UInt64.ofNat n
      ∨ op = .add ∧ v = s.reg .rsp + UInt64.ofNat n) :
    Reaches step (if n = 0 then [] else [.arith op .rsp (Int32.ofNat n)]) s fun s' =>
      s'.reg .rsp = v ∧ s'.memory = s.memory ∧ ∀ at_ size, Spilled B at_ size s s' := by
  by_cases hzero : n = 0
  · subst hzero
    rw [if_pos rfl]
    refine Reaches.nil ⟨?_, rfl, fun at_ size => spilled_refl B at_ size s⟩
    rcases hop with ⟨-, rfl⟩ | ⟨-, rfl⟩
    · exact (UInt64.sub_zero _).symm
    · exact (UInt64.add_zero _).symm
  · rw [if_neg hzero]
    have hmoved : step (.arith op .rsp (Int32.ofNat n)) s
        = some (.next { s.set .rsp v with zeroFlag := v = 0 }) := by
      rcases hop with ⟨rfl, rfl⟩ | ⟨rfl, rfl⟩
      · simp only [step, immediate_ofNat hn]
      · simp only [step, immediate_ofNat hn]
    exact Reaches.one hmoved ⟨rfl, rfl, fun at_ size =>
      ⟨fun q hq => Cpu.set_of_ne hq, rfl, rfl, Memory.within_refl _ _ _ _⟩⟩

-- ============================================================= removing

theorem step_pop {at_ : Nat} {r : Reg} (hsp : s.reg .rsp = B + UInt64.ofNat at_)
    (hr : r ≠ .rsp) :
    ∃ s', step (.pop r) s = some (.next s') ∧ s'.reg .rsp = B + UInt64.ofNat (at_ + 8)
      ∧ s'.reg r = s.memory.read64 (B + UInt64.ofNat at_)
      ∧ (∀ q, q ≠ r → q ≠ .rsp → s'.reg q = s.reg q)
      ∧ s'.xmm = s.xmm ∧ s'.gs = s.gs ∧ s'.memory = s.memory := by
  refine ⟨_, rfl, ?_, ?_, fun q hq hne => ?_, rfl, rfl, rfl⟩
  · rw [Cpu.set_of_ne hr.symm, Cpu.set_self, hsp, next_word]
  · rw [Cpu.set_self, hsp]
  · rw [Cpu.set_of_ne hq, Cpu.set_of_ne hne]

/-- Popping registers takes what is saved from the stack pointer on. -/
theorem pop_spec {f : Reg → UInt64} (rs : List Reg) :
    ∀ {s : Cpu} {at_ : Nat}, s.reg .rsp = B + UInt64.ofNat at_ → (∀ r ∈ rs, r ≠ .rsp) →
      s.memory.Saved B f at_ rs →
      Reaches step (rs.map .pop) s fun s' => s'.reg .rsp = B + UInt64.ofNat (at_ + 8 * rs.length)
        ∧ (∀ q ∈ rs, s'.reg q = f q) ∧ (∀ q ∉ rs, q ≠ .rsp → s'.reg q = s.reg q)
        ∧ s'.xmm = s.xmm ∧ s'.gs = s.gs ∧ s'.memory = s.memory := by
  induction rs with
  | nil =>
      intro s at_ hsp _ _
      exact Reaches.nil ⟨hsp, fun q hq => absurd hq (by simp), fun _ _ _ => rfl, rfl, rfl, rfl⟩
  | cons r rs ih =>
      intro s at_ hsp hrs hsaved
      have hr := hrs r (List.mem_cons_self ..)
      obtain ⟨s₁, hpop, hsp₁, hword, hreg, hsame⟩ := step_pop hsp hr
      refine Reaches.cons hpop ((ih hsp₁ (fun q hq => hrs q (List.mem_cons_of_mem r hq))
        (hsame.2.2 ▸ hsaved.2)).mono ?_)
      rintro s' ⟨hsp', hin, hout, hsame'⟩
      refine ⟨?_, fun q hq => ?_, fun q hq hne => ?_, hsame'.1.trans hsame.1,
        hsame'.2.1.trans hsame.2.1, hsame'.2.2.trans hsame.2.2⟩
      · rw [hsp', List.length_cons, Nat.mul_succ, Nat.add_assoc, Nat.add_comm 8]
      · by_cases hlater : q ∈ rs
        · exact hin q hlater
        · obtain rfl : q = r := (List.mem_cons.mp hq).resolve_right hlater
          rw [hout q hlater hr, hword, hsaved.1]
      · obtain ⟨hqr, hlater⟩ := not_or.mp (mt List.mem_cons.mpr hq)
        rw [hout q hlater hne, hreg q hqr hne]

/-- Loads bring back the lower halves that are saved, and clear the upper
ones. -/
theorem unspill_spec {f : Fin 16 → UInt64} (ns : List (Fin 16)) :
    ∀ {s : Cpu} {at_ : Nat}, s.reg .rsp = B → at_ + 8 * ns.length < 2 ^ 31 →
      s.memory.Saved B f at_ ns →
      Reaches step (unspillXmms at_ (ns.map .ofIndex)) s fun s' =>
        (∀ n ∈ ns, s'.xmm n = (f n).toBitVec.setWidth 128) ∧ (∀ n ∉ ns, s'.xmm n = s.xmm n)
          ∧ s'.reg = s.reg ∧ s'.gs = s.gs ∧ s'.memory = s.memory := by
  induction ns with
  | nil =>
      intro s at_ _ _ _
      exact Reaches.nil ⟨fun n hn => absurd hn (by simp), fun _ _ => rfl, rfl, rfl, rfl⟩
  | cons n ns ih =>
      intro s at_ hsp hfit hsaved
      rw [List.length_cons] at hfit
      have hload : step (.loadScalar .double (.ofIndex n) (.base .rsp (Int32.ofNat at_))) s
          = some (.next (s.setXmm n ((f n).toBitVec.setWidth 128))) := by
        simp only [step, index?_ofIndex, Option.map_some, address_rsp (show at_ < 2 ^ 31 by omega),
          hsp, hsaved.1]
      refine Reaches.cons hload ((ih (s := s.setXmm n _) hsp
        (show at_ + 8 + 8 * ns.length < 2 ^ 31 by omega) hsaved.2).mono ?_)
      rintro s' ⟨hin, hout, hrest⟩
      refine ⟨fun m hm => ?_, fun m hm => ?_, hrest⟩
      · by_cases hlater : m ∈ ns
        · exact hin m hlater
        · obtain rfl : m = n := (List.mem_cons.mp hm).resolve_right hlater
          rw [hout m hlater]
          exact if_pos rfl
      · obtain ⟨hmn, hlater⟩ := not_or.mp (mt List.mem_cons.mpr hm)
        rw [hout m hlater]
        exact if_neg hmn

-- ============================================================ both halves

variable {cs : List Reg} {ns : List (Fin 16)} {low : Nat}

/-- What the upper end of a frame keeps, from distance `low` on. -/
structure Kept (cs : List Reg) (ns : List (Fin 16)) (low : Nat) (s : Cpu) (m : Memory)
    (B : UInt64) : Prop where
  xmms : m.Saved B s.low low ns
  cpus : m.Saved B s.reg (low + 8 * ns.length) cs
  back : m.read64 (B + UInt64.ofNat (low + 8 * ns.length + 8 * cs.length))
    = s.memory.read64 (s.reg .rsp)

theorem Kept.same {m m' : Memory} (h : Kept cs ns low s m B)
    (hsame : m.SameOn m' B low (low + 8 * ns.length + 8 * cs.length + 8)) :
    Kept cs ns low s m' B where
  xmms := h.xmms.same ns (hsame.mono (Nat.le_refl _) (by omega))
  cpus := h.cpus.same cs (hsame.mono (by omega) (by omega))
  back := (hsame.read64 (by omega) (Nat.le_refl _)).trans h.back

/-- Pushes, room and spills keep the registers to save, and touch nothing
below or above them. -/
theorem keep_spec (hcs : ∀ r ∈ cs, r ≠ .rsp)
    (hfit : low + 8 * ns.length + 8 * cs.length + 8 < 2 ^ 31) {spills : List Instr}
    (hspills : spillXmms (low + 8 * ns.length) (ns.reverse.map .ofIndex) = .ok spills) (s : Cpu)
    (hB : s.reg .rsp = B + UInt64.ofNat (low + 8 * ns.length + 8 * cs.length)) :
    Reaches step (cs.reverse.map .push
        ++ (if low + 8 * ns.length = 0 then []
          else [.arith .sub .rsp (Int32.ofNat (low + 8 * ns.length))])
        ++ spills) s fun s₁ =>
      s₁.reg .rsp = B ∧ Spilled B low (8 * ns.length + 8 * cs.length) s s₁
        ∧ Kept cs ns low s s₁.memory B := by
  have hpush := push_spec (B := B) (s := s) cs.reverse
    (by rw [hB, List.length_reverse]) (fun r hr => hcs r (List.mem_reverse.mp hr))
    (by rw [List.length_reverse]; omega)
  rw [List.length_reverse, List.reverse_reverse] at hpush
  rw [List.append_assoc]
  refine hpush.append fun s₁ ⟨hsp₁, hspilled₁, hcpus⟩ => ?_
  refine (room_spec (B := B) (by omega) (.inl ⟨rfl, rfl⟩)).append
    fun s₂ ⟨hsp₂, hmemory, hspilled₂⟩ => ?_
  rw [hsp₁, UInt64.add_sub_cancel] at hsp₂
  have hfits : low + 8 * ns.reverse.length < 2 ^ 31 := by
    rw [List.length_reverse]
    omega
  obtain ⟨is, his, hspill⟩ := spill_spec (B := B) ns.reverse hfits
  rw [List.length_reverse, hspills] at his
  cases his
  rw [List.length_reverse, List.reverse_reverse] at hspill
  refine (hspill s₂ hsp₂).mono fun s₃ ⟨hreg₃, hspilled₃, hxmms⟩ => ?_
  have hspilled : Spilled B low (8 * ns.length + 8 * cs.length) s s₃ :=
    ((hspilled₁.mono (by omega) (by omega)).trans (hspilled₂ _ _)).trans
      (hspilled₃.mono (Nat.le_refl _) (by omega))
  refine ⟨hreg₃ ▸ hsp₂, hspilled, ?_, ?_, ?_⟩
  · refine Memory.saved_congr ns (fun n _ => ?_) hxmms
    rw [Cpu.low, Cpu.low, (hspilled₂ 0 0).xmm, hspilled₁.xmm]
  · -- the spills lie below the pushes
    rw [← hmemory] at hcpus
    exact hcpus.same cs (hspilled₃.memory.sameOn (.inr (Nat.le_refl _)) (by omega) (by omega))
  · rw [hspilled.memory.read64 (.inr (by omega)) (by omega) (by omega), hB]

/-- Loads, room and pops bring back what is kept, and come to the return
address. -/
theorem restore_spec (hcs : ∀ r ∈ cs, r ≠ .rsp)
    (hfit : low + 8 * ns.length + 8 * cs.length + 8 < 2 ^ 31) {s s₂ : Cpu}
    (hB : s₂.reg .rsp = B) (hkept : Kept cs ns low s s₂.memory B) :
    Reaches step (unspillXmms low (ns.map .ofIndex)
        ++ (if low + 8 * ns.length = 0 then []
          else [.arith .add .rsp (Int32.ofNat (low + 8 * ns.length))])
        ++ cs.map .pop) s₂ fun s₃ =>
      s₃.reg .rsp = B + UInt64.ofNat (low + 8 * ns.length + 8 * cs.length)
        ∧ (∀ q ∈ cs, s₃.reg q = s.reg q) ∧ (∀ q ∉ cs, q ≠ .rsp → s₃.reg q = s₂.reg q)
        ∧ (∀ n ∈ ns, s₃.xmm n = (s.low n).toBitVec.setWidth 128)
        ∧ (∀ n ∉ ns, s₃.xmm n = s₂.xmm n)
        ∧ s₃.gs = s₂.gs ∧ s₃.memory = s₂.memory := by
  rw [List.append_assoc]
  refine (unspill_spec ns hB (by omega) hkept.xmms).append
    fun s₃ ⟨hin, hout, hreg₃, hgs₃, hmemory₃⟩ => ?_
  refine (room_spec (B := B) (by omega) (.inr ⟨rfl, rfl⟩)).append
    fun s₄ ⟨hsp₄, hmemory₄, hspilled₄⟩ => ?_
  rw [hreg₃, hB] at hsp₄
  have hspilled := hspilled₄ 0 0
  have hcpus : s₄.memory.Saved B s.reg (low + 8 * ns.length) cs := by
    rw [hmemory₄, hmemory₃]
    exact hkept.cpus
  refine (pop_spec cs hsp₄ hcs hcpus).mono
    fun s₅ ⟨hsp₅, hpopped, hothers, hxmm₅, hgs₅, hmemory₅⟩ => ?_
  refine ⟨hsp₅, hpopped, fun q hq hne => ?_, fun n hn => ?_, fun n hn => ?_, ?_, ?_⟩
  · rw [hothers q hq hne, hspilled.reg q hne, hreg₃]
  · rw [hxmm₅, hspilled.xmm, hin n hn]
  · rw [hxmm₅, hspilled.xmm, hout n hn]
  · rw [hgs₅, hspilled.gs, hgs₃]
  · rw [hmemory₅, hmemory₄, hmemory₃]

-- ======================================================== saved registers

/-- The general-purpose register among those to save that a handle names. -/
def cpu? (r : Register) : Option Reg :=
  match r.x86View with
  | .ok (.cpu q) => some q
  | _ => none

/-- The SSE register among those to save that a handle names. -/
def xmm? (r : Register) : Option (Fin 16) :=
  match r.x86View with
  | .ok (.xmm n) => some n
  | _ => none

/-- A register that frames can save: a general-purpose one other than the
stack pointer, or an SSE register. -/
def Saveable (r : Register) : Prop :=
  (∃ q, q ≠ .rsp ∧ r.x86View = .ok (.cpu q)) ∨ ∃ n, r.x86View = .ok (.xmm n)

theorem cpu?_eq {r : Register} {q : Reg} : cpu? r = some q ↔ r.x86View = .ok (.cpu q) := by
  unfold cpu?
  split <;> simp_all

theorem xmm?_eq {r : Register} {n : Fin 16} : xmm? r = some n ↔ r.x86View = .ok (.xmm n) := by
  unfold xmm?
  split <;> simp_all

variable {saves : List Register}

/-- Handles that all name a register can be looked at together, and then
sorted. -/
theorem mapM_view (h : ∀ r ∈ saves, Saveable r) :
    ∃ vs, saves.mapM Register.x86View = .ok vs
      ∧ ∀ {α : Type} (k : View → Option α) (g : Register → Option α),
        (∀ r v, r.x86View = .ok v → k v = g r) → vs.filterMap k = saves.filterMap g := by
  induction saves with
  | nil => exact ⟨[], rfl, fun _ _ _ => rfl⟩
  | cons r saves ih =>
      obtain ⟨vs, hvs, hsorted⟩ := ih fun q hq => h q (List.mem_cons_of_mem r hq)
      have hview : ∃ v, r.x86View = .ok v := by
        rcases h r (List.mem_cons_self ..) with ⟨q, -, hq⟩ | ⟨n, hn⟩
        · exact ⟨_, hq⟩
        · exact ⟨_, hn⟩
      obtain ⟨v, hv⟩ := hview
      refine ⟨v :: vs, ?_, fun k g hg => ?_⟩
      · rw [List.mapM_cons, hv, hvs]
        rfl
      · rw [List.filterMap_cons, List.filterMap_cons, hg r v hv, hsorted k g hg]

theorem cpuSaves_eq (h : ∀ r ∈ saves, Saveable r) :
    cpuSaves saves = .ok (saves.filterMap cpu?) := by
  obtain ⟨vs, hvs, hsorted⟩ := mapM_view h
  rw [cpuSaves, hvs]
  refine congrArg Except.ok (hsorted _ _ fun r v hv => ?_)
  unfold cpu?
  rw [hv]
  cases v <;> rfl

theorem xmmSaves_eq (h : ∀ r ∈ saves, Saveable r) :
    xmmSaves saves = .ok ((saves.filterMap xmm?).map .ofIndex) := by
  obtain ⟨vs, hvs, hsorted⟩ := mapM_view h
  rw [xmmSaves, hvs, List.map_filterMap]
  refine congrArg Except.ok (hsorted _ _ fun r v hv => ?_)
  unfold xmm?
  rw [hv]
  cases v <;> rfl

theorem saves_length (h : ∀ r ∈ saves, Saveable r) :
    (saves.filterMap cpu?).length + (saves.filterMap xmm?).length = saves.length := by
  induction saves with
  | nil => rfl
  | cons r saves ih =>
      have hrest := ih fun q hq => h q (List.mem_cons_of_mem r hq)
      rcases h r (List.mem_cons_self ..) with ⟨q, -, hview⟩ | ⟨n, hview⟩
      · simp only [List.filterMap_cons, cpu?, xmm?, hview, List.length_cons]
        omega
      · simp only [List.filterMap_cons, cpu?, xmm?, hview, List.length_cons]
        omega

-- =============================================================== frames

/-- What a frame of `size` bytes is to the body of its method: the stack
pointer is at its lower end, and so is the method's register; the other
registers are as before, and so is memory outside. -/
structure Framed (size : Nat) (method : Register) (s s₁ : Cpu) : Prop where
  sp : s₁.reg .rsp = s.reg .rsp - UInt64.ofNat (size - 8)
  reg : ∀ q, q ≠ .rsp → s₁.reg q = s.reg q
  xmm : s₁.xmm = s.xmm
  gs : s₁.gs = s.gs
  method : ∀ m, method.x86View = .ok (.cpu m) → s₁.memory.read64 (s₁.reg .rsp) = s₁.reg m
  memory : s.memory.Within s₁.memory (s₁.reg .rsp) 0 (size - 8)

/-- A body that leaves the stack pointer where it was, and alone the upper
end of the frame, with the registers saved there and the return address. -/
structure Respects (size : Nat) (saves : List Register) (s₁ s₂ : Cpu) : Prop where
  sp : s₂.reg .rsp = s₁.reg .rsp
  area : s₁.memory.SameOn s₂.memory (s₁.reg .rsp) (size - 8 - 8 * saves.length) size

/-- A caller that called in state `s` is back: the stack pointer is above
the return address, and registers that the frame saved are as they were,
SSE registers in their lower halves. All else is as the body left it. -/
structure Unframed (saves : List Register) (s s₂ s₃ : Cpu) : Prop where
  sp : s₃.reg .rsp = s.reg .rsp + 8
  cpus : ∀ r ∈ saves, ∀ q, r.x86View = .ok (.cpu q) → s₃.reg q = s.reg q
  xmms : ∀ r ∈ saves, ∀ n, r.x86View = .ok (.xmm n) →
    s₃.xmm n = ((s.xmm n).setWidth 64).setWidth 128
  otherCpus : ∀ q, q ≠ .rsp → (∀ r ∈ saves, r.x86View ≠ .ok (.cpu q)) → s₃.reg q = s₂.reg q
  otherXmms : ∀ n, (∀ r ∈ saves, r.x86View ≠ .ok (.xmm n)) → s₃.xmm n = s₂.xmm n
  gs : s₃.gs = s₂.gs
  memory : s₃.memory = s₂.memory

theorem restOfFrame_eq (n pushes : Nat) : restOfFrame (n + 8 * pushes + 8) pushes = .ok n := by
  have hpushes : subWord (n + 8 * pushes + 8) (pushes * wordSize) = .ok (n + 8) := by
    rw [show n + 8 * pushes + 8 = n + 8 + pushes * wordSize by rw [wordSize]; omega, subWord_add]
  rw [restOfFrame, hpushes]
  exact subWord_add n 8

/-- What is left of a frame below its pushed registers. -/
theorem restOfFrame_saves (low : Nat) (h : ∀ r ∈ saves, Saveable r) :
    restOfFrame (low + 8 * saves.length + 8) (saves.filterMap cpu?).length
      = .ok (low + 8 * (saves.filterMap xmm?).length) := by
  rw [← restOfFrame_eq (low + 8 * (saves.filterMap xmm?).length), ← saves_length h]
  congr 1
  omega

/-- What a frame is built by. -/
theorem buildFrame_eq (low : Nat) (method : Register) (hsaves : ∀ r ∈ saves, Saveable r) :
    Yields (buildFrame (low + 8 * saves.length + 8) method saves) fun is =>
      ∃ spills publish, spillXmms (low + 8 * (saves.filterMap xmm?).length)
          ((saves.filterMap xmm?).reverse.map .ofIndex) = .ok spills
        ∧ is = (saves.filterMap cpu?).reverse.map .push
          ++ (if low + 8 * (saves.filterMap xmm?).length = 0 then []
            else [.arith .sub .rsp (Int32.ofNat (low + 8 * (saves.filterMap xmm?).length))])
          ++ spills ++ publish
        ∧ (method.isSome = false ∧ publish = []
          ∨ ∃ m, method.cpu = .ok m ∧ publish = [.store .quad (.base .rsp 0) m]) := by
  have hreverse : ∀ r ∈ saves.reverse, Saveable r := fun r hr => hsaves r (List.mem_reverse.mp hr)
  refine yields_ite (fun _ => yields_error _) fun _ => ?_
  refine yields_bind fun cpus hcpus => yields_bind fun xmms hxmms =>
    yields_bind fun rest hrest => ?_
  rw [cpuSaves_eq hreverse, List.filterMap_reverse] at hcpus
  rw [xmmSaves_eq hreverse, List.filterMap_reverse] at hxmms
  cases hcpus
  cases hxmms
  rw [List.length_reverse, restOfFrame_saves low hsaves] at hrest
  cases hrest
  refine yields_bind fun spills hspills => ?_
  refine yields_ite (fun _ => yields_bind fun m hm => yields_pure ?_) fun hnone => yields_pure ?_
  · exact ⟨spills, _, hspills, rfl, .inr ⟨m, hm, rfl⟩⟩
  · exact ⟨spills, _, hspills, rfl, .inl ⟨Bool.eq_false_iff.mpr hnone, rfl⟩⟩

/-- What a frame is removed by. -/
theorem removeFrame_eq (low : Nat) (hsaves : ∀ r ∈ saves, Saveable r) :
    Yields (removeFrame (low + 8 * saves.length + 8) saves) fun is =>
      is = unspillXmms low ((saves.filterMap xmm?).map .ofIndex)
        ++ (if low + 8 * (saves.filterMap xmm?).length = 0 then []
          else [.arith .add .rsp (Int32.ofNat (low + 8 * (saves.filterMap xmm?).length))])
        ++ (saves.filterMap cpu?).map .pop ++ [.ret] := by
  refine yields_ite (fun _ => yields_error _) fun _ => ?_
  refine yields_bind fun low' hlow => yields_bind fun xmms hxmms => yields_bind fun cpus hcpus => ?_
  rw [restOfFrame_eq] at hlow
  rw [xmmSaves_eq hsaves] at hxmms
  rw [cpuSaves_eq hsaves] at hcpus
  cases hlow
  cases hxmms
  cases hcpus
  refine yields_bind fun rest hrest => yields_pure ?_
  rw [restOfFrame_saves low hsaves] at hrest
  cases hrest
  rfl

theorem isSome_of_view {r : Register} {q : Reg} (h : r.x86View = .ok (.cpu q)) :
    r.isSome = true := by
  unfold Register.x86View at h
  split at h
  · cases h
  · next hnone => simpa [Register.isNone, Register.isSome] using hnone

theorem mem_cpus {q : Reg} :
    q ∈ saves.filterMap cpu? ↔ ∃ r ∈ saves, r.x86View = .ok (.cpu q) := by
  simp only [List.mem_filterMap, cpu?_eq]

theorem mem_xmms {n : Fin 16} :
    n ∈ saves.filterMap xmm? ↔ ∃ r ∈ saves, r.x86View = .ok (.xmm n) := by
  simp only [List.mem_filterMap, xmm?_eq]

theorem cpu?_ne (h : ∀ r ∈ saves, Saveable r) : ∀ q ∈ saves.filterMap cpu?, q ≠ .rsp := by
  intro q hq
  obtain ⟨r, hr, hq⟩ := mem_cpus.mp hq
  rcases h r hr with ⟨q', hne, hview⟩ | ⟨n, hview⟩
  · obtain rfl : q' = q := View.cpu.inj (Except.ok.inj (hview.symm.trans hq))
    exact hne
  · cases hview.symm.trans hq

theorem step_publish (m : Reg) :
    step (.store .quad (.base .rsp 0) m) s
      = some (.next { s with memory := s.memory.write64 (s.reg .rsp) (s.reg m) }) := by
  have haddress : s.address (.base .rsp 0) = s.reg .rsp :=
    (address_rsp (n := 0) (by decide) s).trans (UInt64.add_zero _)
  simp only [step, exec, haddress]

/-- Building a frame leaves the body what it needs, and keeps at the upper
end what removing the frame needs. -/
theorem build_spec {method : Register} (hsaves : ∀ r ∈ saves, Saveable r)
    (hsize : low + 8 * saves.length + 8 < 2 ^ 31) (hroom : method.isSome = true → 8 ≤ low)
    {is : List Instr} (h : buildFrame (low + 8 * saves.length + 8) method saves = .ok is)
    (s : Cpu) :
    Reaches step is s fun s₁ => Framed (low + 8 * saves.length + 8) method s s₁
      ∧ Kept (saves.filterMap cpu?) (saves.filterMap xmm?) low s s₁.memory (s₁.reg .rsp) := by
  obtain ⟨spills, publish, hspills, rfl, hpublish⟩ := buildFrame_eq low method hsaves is h
  have hlength := saves_length hsaves
  have hB : s.reg .rsp = s.reg .rsp - UInt64.ofNat (low + 8 * saves.length)
      + UInt64.ofNat (low + 8 * (saves.filterMap xmm?).length
        + 8 * (saves.filterMap cpu?).length) := by
    rw [show low + 8 * (saves.filterMap xmm?).length + 8 * (saves.filterMap cpu?).length
      = low + 8 * saves.length by omega, UInt64.sub_add_cancel]
  refine (keep_spec (cpu?_ne hsaves) (by omega) hspills s hB).append
    fun s₁ ⟨hsp, hspilled, hkept⟩ => ?_
  have hsize' : low + 8 * saves.length + 8 - 8 = low + 8 * saves.length := Nat.add_sub_cancel ..
  have hwhole : Spilled (s₁.reg .rsp) 0 (low + 8 * saves.length) s s₁ := by
    rw [hsp]
    exact hspilled.mono (Nat.zero_le _) (by omega)
  rcases hpublish with ⟨hnone, rfl⟩ | ⟨m, hm, rfl⟩
  · refine Reaches.nil ⟨⟨by rw [hsize', hsp], hwhole.reg, hwhole.xmm, hwhole.gs,
      fun m hm => ?_, ?_⟩, ?_⟩
    · rw [isSome_of_view hm] at hnone
      cases hnone
    · rw [hsize']
      exact hwhole.memory
    · rw [hsp]
      exact hkept
  · have hview := x86View_of_cpu hm
    have hlow := hroom (isSome_of_view hview)
    refine Reaches.one (step_publish m) ?_
    have hwrite := Memory.within_write64 s₁.memory (s₁.reg .rsp) 0 (s₁.reg m)
    rw [show s₁.reg .rsp + UInt64.ofNat 0 = s₁.reg .rsp from UInt64.add_zero _] at hwrite
    refine ⟨⟨by rw [hsize']; exact hsp, hwhole.reg, hwhole.xmm, hwhole.gs,
      fun m' hm' => ?_, ?_⟩, ?_⟩
    · obtain rfl : m = m' := View.cpu.inj (Except.ok.inj (hview.symm.trans hm'))
      exact Memory.read64_write64 ..
    · rw [hsize']
      exact hwhole.memory.trans (hwrite.mono (Nat.le_refl _) (by omega))
    · refine Kept.same (m := s₁.memory) (by rw [hsp]; exact hkept) ?_
      exact hwrite.sameOn (.inr (by omega)) (by omega) (by omega)

/-- Removing a frame brings back what is kept, and returns. -/
theorem remove_spec (hsaves : ∀ r ∈ saves, Saveable r)
    (hsize : low + 8 * saves.length + 8 < 2 ^ 31) {is : List Instr}
    (h : removeFrame (low + 8 * saves.length + 8) saves = .ok is) {s s₂ : Cpu}
    (hB : s.reg .rsp = s₂.reg .rsp + UInt64.ofNat (low + 8 * saves.length))
    (hkept : Kept (saves.filterMap cpu?) (saves.filterMap xmm?) low s s₂.memory (s₂.reg .rsp)) :
    ∃ s₃, follow step is s₂ = some (.back (s.memory.read64 (s.reg .rsp)) s₃)
      ∧ Unframed saves s s₂ s₃ := by
  obtain rfl := removeFrame_eq low hsaves is h
  have hlength := saves_length hsaves
  have htop : low + 8 * (saves.filterMap xmm?).length + 8 * (saves.filterMap cpu?).length
      = low + 8 * saves.length := by omega
  obtain ⟨s₃, hruns, hsp, hcpus, hothers, hxmms, hotherXmms, hgs, hmemory⟩ :=
    restore_spec (cpu?_ne hsaves) (by omega) rfl hkept
  rw [htop, ← hB] at hsp
  have hback := hkept.back
  rw [htop, ← hB] at hback
  refine ⟨s₃.set .rsp (s₃.reg .rsp + 8), ?_, ⟨?_, fun r hr q hq => ?_, fun r hr n hn => ?_,
    fun q hq hfree => ?_, fun n hfree => ?_, hgs, hmemory⟩⟩
  · rw [follow_append hruns, follow]
    simp only [step]
    rw [hsp, hmemory, hback]
  · rw [Cpu.set_self, hsp]
  · have hmem := mem_cpus.mpr ⟨r, hr, hq⟩
    rw [Cpu.set_of_ne (cpu?_ne hsaves q hmem), hcpus q hmem]
  · exact hxmms n (mem_xmms.mpr ⟨r, hr, hn⟩)
  · refine (Cpu.set_of_ne hq).trans (hothers q (fun hmem => ?_) hq)
    obtain ⟨r, hr, hview⟩ := mem_cpus.mp hmem
    exact hfree r hr hview
  · refine hotherXmms n fun hmem => ?_
    obtain ⟨r, hr, hview⟩ := mem_xmms.mp hmem
    exact hfree r hr hview

/-- A frame can be undone: it is built with everything in its place, and
removed again after any body that respects it. -/
theorem frame_spec {size : Nat} {method : Register} (hsaves : ∀ r ∈ saves, Saveable r)
    (hsize : size < 2 ^ 31)
    (hroom : 8 * saves.length + (if method.isSome then 8 else 0) + 8 ≤ size)
    {build remove : List Instr} (hbuild : buildFrame size method saves = .ok build)
    (hremove : removeFrame size saves = .ok remove) (s : Cpu) :
    Reaches step build s fun s₁ => Framed size method s s₁
      ∧ ∀ s₂, Respects size saves s₁ s₂ →
        ∃ s₃, follow step remove s₂ = some (.back (s.memory.read64 (s.reg .rsp)) s₃)
          ∧ Unframed saves s s₂ s₃ := by
  obtain ⟨low, rfl⟩ : ∃ low, size = low + 8 * saves.length + 8 :=
    ⟨size - 8 - 8 * saves.length, by omega⟩
  have hlength := saves_length hsaves
  have hlow : method.isSome = true → 8 ≤ low := by
    intro hsome
    rw [if_pos hsome] at hroom
    omega
  refine (build_spec hsaves hsize hlow hbuild s).mono fun s₁ ⟨hframed, hkept⟩ =>
    ⟨hframed, fun s₂ hrespects => ?_⟩
  have harea := hrespects.area
  rw [show low + 8 * saves.length + 8 - 8 - 8 * saves.length = low by omega] at harea
  refine remove_spec hsaves hsize hremove ?_ ?_
  · rw [hrespects.sp, hframed.sp, Nat.add_sub_cancel, UInt64.sub_add_cancel]
  · rw [hrespects.sp]
    exact hkept.same (harea.mono (Nat.le_refl _) (by omega))

end Crossing.X86
