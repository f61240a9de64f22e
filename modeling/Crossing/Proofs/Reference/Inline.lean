import Crossing.Proofs.Glue.Transition
import Crossing.Proofs.Reference.History

/-
Handles in generated code. When native code returns a handle, a stub makes a
reference of it in place: it tests a bit, clears two, and loads a word. On
either processor that comes to `Handle.inline?` (`Target.decodes`), so for
every handle that a table has returned it comes to what the runtime's own
decoding gives, whatever has happened to the tables since.
-/
namespace Crossing

-- ============================================================== words

section Words

variable {n : Nat} {v : UInt64}

theorem and_two_eq_zero_iff : n &&& 2 = 0 ↔ n / 2 % 2 ≠ 1 := by
  have htwo (i : Nat) : Nat.testBit 2 i = decide (1 = i) := Nat.testBit_two_pow (n := 1) (m := i)
  have hbit : n.testBit 1 = decide (n / 2 % 2 = 1) := Nat.testBit_eq_decide_div_mod_eq
  constructor
  · intro hzero hset
    have hone : (n &&& 2).testBit 1 = true := by simp [htwo, hbit, hset]
    rw [hzero] at hone
    cases hone
  · intro hclear
    refine Nat.eq_of_testBit_eq fun i => ?_
    rw [Nat.testBit_and, htwo]
    by_cases hi : 1 = i
    · subst hi
      simp [hbit, hclear]
    · simp [hi]

theorem and_clearLow (hn : n < 2 ^ 64) : n &&& (2 ^ 64 - 4) = n / 4 * 4 := by
  have hshift : n / 4 * 4 = n >>> 2 <<< 2 := by rw [Nat.shiftLeft_eq, Nat.shiftRight_eq_div_pow]
  have hlow (i : Nat) : Nat.testBit (2 ^ 64 - 4) i = (decide (i < 64) && !decide (i < 2)) := by
    rw [← Nat.testBit_two_pow_sub_one 2 i]
    exact Nat.testBit_two_pow_sub_succ (x := 3) (by decide) i
  refine Nat.eq_of_testBit_eq fun i => ?_
  rw [hshift, Nat.testBit_and, hlow, Nat.testBit_shiftLeft, Nat.testBit_shiftRight]
  by_cases hi : i < 2
  · simp [hi, Nat.not_le_of_lt hi]
  · rw [show 2 + (i - 2) = i by omega]
    by_cases hbound : i < 64
    · simp [hi, hbound, Nat.le_of_not_lt hi]
    · have hhigh : n.testBit i = false := Nat.testBit_lt_two_pow
        (Nat.lt_of_lt_of_le hn (Nat.pow_le_pow_right (by decide) (Nat.le_of_not_lt hbound)))
      simp [hhigh]

end Words

namespace Glue

-- ============================================================ decoding

/-- From any state of the processor in which a register holds a handle, the
code ends and leaves memory alone. A handle that is not to be followed in
place is still in the register when the code branches to `slow`; otherwise
the reference is in its place at the end of the code or at `resume`. -/
def Decodes {ι σ : Type} (P : Processor ι σ) (code : List (Item ι)) (reg : Register)
    (slow resume : Nat) : Prop :=
  ∀ (s : σ) (h : Handle), P.content s reg = h.bits →
    match h.inline? fun a => (P.memory s).read32 (UInt64.ofNat a) with
    | none => ∃ s', Ends P.exec code s (.branched slow s')
        ∧ P.memory s' = P.memory s ∧ P.content s' reg = h.bits
    | some r => ∃ s', (Ends P.exec code s (.through s') ∨ Ends P.exec code s (.branched resume s'))
        ∧ P.memory s' = P.memory s ∧ P.content s' reg = r.toNat

/-- The three ways that a handle can go. -/
theorem decodes_of_ways {ι σ : Type} {P : Processor ι σ} {code : List (Item ι)} {reg : Register}
    {slow resume : Nat}
    (hslow : ∀ (s : σ) (h : Handle), P.content s reg = h.bits → h.bits / 2 % 2 = 1 →
      ∃ s', Ends P.exec code s (.branched slow s') ∧ P.memory s' = P.memory s
        ∧ P.content s' reg = h.bits)
    (hnull : ∀ (s : σ) (h : Handle), P.content s reg = h.bits → h.bits / 2 % 2 ≠ 1 → h.slot = 0 →
      ∃ s', Ends P.exec code s (.branched resume s') ∧ P.memory s' = P.memory s
        ∧ P.content s' reg = 0)
    (hread : ∀ (s : σ) (h : Handle), P.content s reg = h.bits → h.bits / 2 % 2 ≠ 1 → h.slot ≠ 0 →
      ∃ s', Ends P.exec code s (.through s') ∧ P.memory s' = P.memory s
        ∧ P.content s' reg = ((P.memory s).read32 (UInt64.ofNat h.slot)).toNat) :
    Decodes P code reg slow resume := by
  intro s h hcontent
  by_cases hbit : h.bits / 2 % 2 = 1
  · simp only [Handle.inline?, if_pos hbit]
    exact hslow s h hcontent hbit
  · by_cases hzero : h.slot = 0
    · obtain ⟨s', hends, hs'⟩ := hnull s h hcontent hbit hzero
      simp only [Handle.inline?, if_neg hbit, if_pos hzero]
      exact ⟨s', .inr hends, hs'⟩
    · obtain ⟨s', hends, hs'⟩ := hread s h hcontent hbit hzero
      simp only [Handle.inline?, if_neg hbit, if_neg hzero]
      exact ⟨s', .inl hends, hs'⟩

/-- A slot lies within reach of a register that holds its handle. -/
theorem slot_eq_zero_iff {v : UInt64} {h : Handle} (hbits : v.toNat = h.bits) :
    UInt64.ofNat h.slot = 0 ↔ h.slot = 0 := by
  have hlt := v.toNat_lt
  rw [← UInt64.toNat_inj, UInt64.toNat_ofNat', UInt64.toNat_zero, Handle.slot,
    Nat.mod_eq_of_lt (by omega)]

end Glue

-- ============================================================== x86-64

namespace Glue.X86

open Crossing.X86

/-- The second bit of a register. -/
theorem test_two_iff (v : UInt64) : v.toUInt32 &&& 2 = 0 ↔ v.toNat / 2 % 2 ≠ 1 := by
  rw [← UInt32.toNat_inj, UInt32.toNat_and]
  show v.toNat % 2 ^ 32 &&& 2 = 0 ↔ _
  rw [and_two_eq_zero_iff]
  omega

/-- A register without its low two bits. -/
theorem and_mask (v : UInt64) :
    v &&& (-4 : Int32).toInt64.toUInt64 = UInt64.ofNat (v.toNat / 4 * 4) := by
  have hlt := v.toNat_lt
  rw [← UInt64.toNat_inj, UInt64.toNat_and, UInt64.toNat_ofNat', Nat.mod_eq_of_lt (by omega)]
  exact and_clearLow hlt

/-- What is emitted for decoding: test, branch, clear, branch, load. -/
theorem lower_decodes {reg : Register} {r : Reg} (hreg : reg.cpu = .ok r) (slow resume : Label)
    (next : Nat) : ∃ code, lower (.decodeReference reg slow resume) next = .ok code
      ∧ Decodes processor code.items reg slow.index resume.index := by
  have hview (s : Cpu) : processor.content s reg = (s.reg r).toNat := by
    simp [processor, Cpu.content, x86View_of_cpu hreg]
  have hmask {s : Cpu} {h : Handle} (hbits : (s.reg r).toNat = h.bits) :
      s.reg r &&& (-4 : Int32).toInt64.toUInt64 = UInt64.ofNat h.slot := by
    rw [and_mask, hbits]
    rfl
  have hself (s : Cpu) (v : UInt64) : (s.set r v).reg r = v := if_pos rfl
  refine ⟨.ofInstrs next [.testImm r 2, .jumpIf .notZero slow.index, .arith .and r (-4),
    .jumpIf .zero resume.index, .load .long r (.base r 0)], ?_, decodes_of_ways ?_ ?_ ?_⟩
  · simp only [lower, hreg]
    rfl
  · intro s h hcontent hbit
    rw [hview] at hcontent
    have htest : ¬ (s.reg r).toUInt32 &&& 2 = 0 := by
      rw [test_two_iff, hcontent]
      exact fun hne => hne hbit
    refine ⟨_, Runs.ends (.next rfl <| .leave (exec_jumpNotZero (decide_eq_false htest))
      (target?_instrs slow.index _)), rfl, ?_⟩
    exact (hview _).trans hcontent
  · intro s h hcontent hbit hzero
    rw [hview] at hcontent
    have htest : (s.reg r).toUInt32 &&& 2 = 0 := by
      rw [test_two_iff, hcontent]
      exact hbit
    have hclear := (hmask hcontent).trans ((slot_eq_zero_iff hcontent).mpr hzero)
    refine ⟨_, Runs.ends (.next rfl <| .next (exec_jumpNotZero_of_zero (decide_eq_true htest))
      <| .next rfl <| .leave (exec_jumpZero_of_zero (decide_eq_true hclear))
        (target?_instrs resume.index _)), rfl, ?_⟩
    rw [hview]
    show ((Cpu.set _ r _).reg r).toNat = 0
    rw [hself]
    exact congrArg UInt64.toNat hclear
  · intro s h hcontent hbit hzero
    rw [hview] at hcontent
    have htest : (s.reg r).toUInt32 &&& 2 = 0 := by
      rw [test_two_iff, hcontent]
      exact hbit
    have hmasked := hmask hcontent
    have hclear : ¬ s.reg r &&& (-4 : Int32).toInt64.toUInt64 = 0 := by
      rw [hmasked, slot_eq_zero_iff hcontent]
      exact hzero
    refine ⟨_, Runs.ends (.next rfl <| .next (exec_jumpNotZero_of_zero (decide_eq_true htest))
      <| .next rfl <| .next (exec_jumpZero (decide_eq_false hclear)) <| .next rfl .done), rfl, ?_⟩
    rw [hview]
    have hbase : UInt64.ofNat h.slot + (0 : Int32).toInt64.toUInt64 = UInt64.ofNat h.slot :=
      UInt64.add_zero _
    simp only [hself, Cpu.address, hmasked, hbase, UInt32.toNat_toUInt64]
    rfl

end Glue.X86

-- =============================================================== ARM64

namespace Glue.A64

open Crossing.A64

theorem a64View_of_core {reg : Register} {r : Reg} (h : reg.core = .ok r) :
    reg.a64View = .ok (.x r) ∨ reg.a64View = .ok (.w r) := by
  unfold Register.core at h
  cases hview : reg.a64View with
  | error v => rw [hview] at h; cases h
  | ok view =>
      rw [hview] at h
      cases view with
      | x q => cases h; exact .inl rfl
      | w q => cases h; exact .inr rfl
      | _ => cases h

/-- A register without its low two bits. -/
theorem shift_back (v : UInt64) :
    v >>> UInt64.ofNat 2 <<< UInt64.ofNat 2 = UInt64.ofNat (v.toNat / 4 * 4) := by
  have hlt := v.toNat_lt
  rw [← UInt64.toNat_inj, UInt64.toNat_shiftLeft, UInt64.toNat_shiftRight, UInt64.toNat_ofNat',
    UInt64.toNat_ofNat']
  show v.toNat >>> 2 <<< 2 % 2 ^ 64 = v.toNat / 4 * 4 % 2 ^ 64
  rw [Nat.shiftLeft_eq, Nat.shiftRight_eq_div_pow]

/-- What is emitted for decoding: test, branch, clear, branch, load. -/
theorem lower_decodes {reg : Register} {r : Reg} (hreg : reg.core = .ok r) (hr : r ≠ .zero)
    (lse : Bool) (slow resume : Label) (next : Nat) :
    ∃ code, lower lse (.decodeReference reg slow resume) next = .ok code
      ∧ Decodes processor code.items reg slow.index resume.index := by
  have hview (s : Cpu) : processor.content s reg = (s.x r).toNat := by
    rcases a64View_of_core hreg with hview | hview
    · simp [processor, Cpu.content, hview]
    · simp [processor, Cpu.content, hview]
  have hself (s : Cpu) (v : UInt64) : (s.set r v).x r = v := if_pos ⟨rfl, hr⟩
  have hoperand (s : Cpu) : s.operand r = s.x r := if_neg hr
  have htest {s : Cpu} {h : Handle} (hbits : (s.x r).toNat = h.bits) :
      (s.operand r).toNat.testBit 1 = decide (h.bits / 2 % 2 = 1) := by
    rw [hoperand, hbits]
    exact Nat.testBit_eq_decide_div_mod_eq
  have hclear {s : Cpu} {h : Handle} (hbits : (s.x r).toNat = h.bits) :
      exec (.clearLow r r ⟨2, by decide, by decide⟩) s
        = some (.next (s.set r (UInt64.ofNat h.slot))) := by
    simp only [exec, if_neg hr]
    rw [hoperand, shift_back, hbits]
    rfl
  refine ⟨.ofInstrs next [.tstBit r 1, .bCond .ne slow.index,
    .clearLow r r ⟨2, by decide, by decide⟩, .cbz r true resume.index, .ldrW r r ⟨0⟩], ?_,
    decodes_of_ways ?_ ?_ ?_⟩
  · simp only [lower, hreg]
    rfl
  · intro s h hcontent hbit
    rw [hview] at hcontent
    have hflag : (!(s.operand r).toNat.testBit 1) = false := by
      rw [htest hcontent, decide_eq_true hbit]
      rfl
    refine ⟨_, Runs.ends (.next rfl <| .leave (exec_branchNotEqual hflag)
      (target?_instrs slow.index _)), rfl, ?_⟩
    exact (hview _).trans hcontent
  · intro s h hcontent hbit hzero
    rw [hview] at hcontent
    have hflag : (!(s.operand r).toNat.testBit 1) = true := by
      rw [htest hcontent, decide_eq_false hbit]
      rfl
    have hzero' : UInt64.ofNat h.slot = 0 := (slot_eq_zero_iff hcontent).mpr hzero
    refine ⟨_, Runs.ends (.next rfl <| .next (exec_branchNotEqual_of_zero hflag)
      <| .next (hclear hcontent) <| .leave (exec_branchZero (by rw [hoperand, hself, hzero']))
        (target?_instrs resume.index _)), rfl, ?_⟩
    rw [hview, hself, hzero']
    rfl
  · intro s h hcontent hbit hzero
    rw [hview] at hcontent
    have hflag : (!(s.operand r).toNat.testBit 1) = true := by
      rw [htest hcontent, decide_eq_false hbit]
      rfl
    have hzero' : UInt64.ofNat h.slot ≠ 0 := mt (slot_eq_zero_iff hcontent).mp hzero
    refine ⟨_, Runs.ends (.next rfl <| .next (exec_branchNotEqual_of_zero hflag)
      <| .next (hclear hcontent)
      <| .next (exec_branchZero_of_ne (by rw [hoperand, hself]; exact hzero'))
      <| .next rfl .done), rfl, ?_⟩
    have hbase : UInt64.ofNat h.slot + UInt64.ofNat (⟨0⟩ : Scaled 4).offset
        = UInt64.ofNat h.slot := UInt64.add_zero _
    rw [hview]
    simp only [hself, hbase, UInt32.toNat_toUInt64]
    rfl

end Glue.A64

-- ============================================================= targets

namespace Glue.Target

/-- A register that can hold a handle. Register 31 of ARM64 cannot. -/
def General (t : Target) (reg : Register) : Prop :=
  match t with
  | .x86_64 => ∃ r, reg.cpu = .ok r
  | .arm64 _ => ∃ r, reg.core = .ok r ∧ r ≠ .zero

/-- What is emitted for decoding the handle in a register does so. -/
def Decodes (t : Target) (reg : Register) (slow resume : Label) (next : Nat) : Prop :=
  match t with
  | .x86_64 => ∃ code, X86.lower (.decodeReference reg slow resume) next = .ok code
      ∧ Glue.Decodes X86.processor code.items reg slow.index resume.index
  | .arm64 lse => ∃ code, A64.lower lse (.decodeReference reg slow resume) next = .ok code
      ∧ Glue.Decodes A64.processor code.items reg slow.index resume.index

theorem decodes {t : Target} {reg : Register} (hreg : t.General reg) (slow resume : Label)
    (next : Nat) : t.Decodes reg slow resume next := by
  cases t with
  | x86_64 =>
      obtain ⟨r, hcpu⟩ := hreg
      exact X86.lower_decodes hcpu slow resume next
  | arm64 lse =>
      obtain ⟨r, hcore, hr⟩ := hreg
      exact A64.lower_decodes hcore hr lse slow resume next

end Glue.Target

-- ============================================================ survival

/-- Whatever has been added to tables and dropped from them since: a handle
that was returned stands for its reference as long as it should, no two that
stand are the same, and generated code, on either processor and with the
handle in any register, makes of it what the runtime does. -/
theorem HandleHistory.survives {s₀ s : HandleTables} {events : List HandleEvent}
    {read : Nat → HeapRef} (h : HandleHistory s₀ events s) (hfresh : s₀.Fresh)
    (hread : s.Shows read) :
    s.Faithful events read
      ∧ ∀ (t : Glue.Target) (reg : Register), t.General reg → ∀ slow resume next,
        t.Decodes reg slow resume next :=
  ⟨(h.recorded hfresh).faithful hfresh hread, fun _ _ hreg => Glue.Target.decodes hreg⟩

-- -------------------------------------------------- two tables at work

/-- A table with two slots and one with a single slot. -/
def twoTables : HandleTables where
  locals
    | 0 => .ofCapacity 0x1000 2
    | 1 => .ofCapacity 0x2000 1
    | _ => .ofCapacity 0 0

theorem twoTables_slot {k i : Nat} (hi : i < (twoTables.locals k).capacity) :
    (k = 0 ∧ i < 2 ∧ (twoTables.locals k).address i = 0x1000 + 4 * i)
      ∨ (k = 1 ∧ i = 0 ∧ (twoTables.locals k).address i = 0x2000) := by
  match k with
  | 0 => exact .inl ⟨rfl, hi, rfl⟩
  | 1 =>
      obtain rfl : i = 0 := Nat.lt_one_iff.mp hi
      exact .inr ⟨rfl, rfl, rfl⟩
  | k + 2 => exact absurd hi (Nat.not_lt_zero i)

theorem twoTables_fresh : twoTables.Fresh where
  unused
    | 0 => LocalTable.holds_ofCapacity 0x1000 2
    | 1 => LocalTable.holds_ofCapacity 0x2000 1
    | _ + 2 => LocalTable.holds_ofCapacity 0 0
  aligned hi := by
    have := twoTables_slot hi
    omega
  nonzero hi := by
    have := twoTables_slot hi
    omega
  apart hi hi' heq := by
    have := twoTables_slot hi
    have := twoTables_slot hi'
    omega

/-- Of two references in the first table the second is dropped; a weak one
and one in the second table come besides. -/
def mixedEvents : List HandleEvent :=
  [.added 1 0 0xA0 ⟨0x2001⟩, .popped 0 1, .addedGlobal 0x98 true ⟨3⟩, .added 0 1 0x90 ⟨0x1005⟩,
    .added 0 0 0x88 ⟨0x1001⟩]

/-- Memory after these events. -/
def mixedRead (a : Nat) : HeapRef := if a = 0x1000 then 0x88 else if a = 0x2000 then 0xA0 else 0

theorem mixed_history : ∃ s, HandleHistory twoTables mixedEvents s ∧ s.Shows mixedRead := by
  have h₁ : HandleHistory twoTables [.added 0 0 0x88 ⟨0x1001⟩] _ := .added .start rfl
  have h₂ : HandleHistory twoTables (.added 0 1 0x90 ⟨0x1005⟩ :: _) _ := h₁.added rfl
  have h₃ : HandleHistory twoTables (.addedGlobal 0x98 true ⟨3⟩ :: _) _ := h₂.addedGlobal rfl
  have h₄ : HandleHistory twoTables mixedEvents _ := (h₃.popped 0 1).added rfl
  refine ⟨_, h₄, fun {k i r} hslot => ?_⟩
  match k, i with
  | 0, 0 => cases hslot; rfl
  | 0, 1 => cases hslot; rfl
  | 0, i + 2 => cases hslot
  | 1, 0 => cases hslot; rfl
  | 1, i + 1 => cases hslot
  | k + 2, i => cases hslot

/-- The handles of all references but the dropped one lead to them, and that
of the dropped one leads to null. -/
theorem HandleHistory.survives_mixed : ∃ s, HandleHistory twoTables mixedEvents s
    ∧ Handle.decode mixedRead s.globals ⟨0x1001⟩ = .ok 0x88
    ∧ Handle.decode mixedRead s.globals ⟨0x1005⟩ = .ok 0
    ∧ Handle.decode mixedRead s.globals ⟨3⟩ = .ok 0x98
    ∧ Handle.decode mixedRead s.globals ⟨0x2001⟩ = .ok 0xA0
    ∧ (Glue.Target.arm64 true).Decodes ⟨0⟩ ⟨.arm64, 0, 0⟩ ⟨.arm64, 0, 1⟩ 2 := by
  obtain ⟨s, h, hread⟩ := mixed_history
  obtain ⟨hfaithful, hcode⟩ := h.survives twoTables_fresh hread
  have hfirst : Stands mixedEvents (mixedEvents.take 4) 0 0 0x88 ⟨0x1001⟩ :=
    ⟨by decide, ⟨_, rfl⟩, by simp [mixedEvents, HandleEvent.Drops]⟩
  have hlast : Stands mixedEvents [] 1 0 0xA0 ⟨0x2001⟩ := ⟨by decide, ⟨_, rfl⟩, nofun⟩
  have hweak : .addedGlobal 0x98 true ⟨3⟩ ∈ mixedEvents := by simp [mixedEvents]
  have hsecond : .added 0 1 0x90 ⟨0x1005⟩ ∈ mixedEvents := by simp [mixedEvents]
  have hpopped : mixedEvents = [.added 1 0 0xA0 ⟨0x2001⟩] ++ .popped 0 1 :: mixedEvents.drop 2 := rfl
  refine ⟨s, h, hfaithful.stands hfirst, ?_, (hfaithful.global hweak (by decide)).2,
    hfaithful.stands hlast, hcode (.arm64 true) ⟨0⟩ ⟨_, rfl, by decide⟩ _ _ _⟩
  exact hfaithful.dropped hsecond (by decide) hpopped (Nat.le_refl 1) (by simp [HandleEvent.Fills])

end Crossing
