import Crossing.Proofs.Fault.Recovery
import Crossing.X86.Instr

/-
Implicit suspend checks on x86: when the handler takes a fault for one. It
looks back from the faulting test for the load of the trigger, so what
counts is where in the code that pattern may stand: not before the window,
not before the method, and not across the test. `testsTrigger_iff` says so
in terms of the bytes at an address; the pattern is what the encoder makes
of the load (`triggerLoad_bytes`), whatever code is around it.
-/
namespace Crossing

/-- A trapped thread's code has these bytes at an address. -/
def Trap.Has (t : Trap) (address : Nat) (bytes : List UInt8) : Prop :=
  t.codeBase ≤ address ∧ bytes <+: t.code.drop (address - t.codeBase)

/-- Code has each of its parts at the part's address. -/
theorem Trap.has_of_append {t : Trap} {before bytes after : List UInt8}
    (h : t.code = before ++ (bytes ++ after)) : t.Has (t.codeBase + before.length) bytes := by
  refine ⟨Nat.le_add_right _ _, ?_⟩
  rw [h, Nat.add_sub_cancel_left, List.drop_left]
  exact List.prefix_append bytes after

namespace Fault

-- ============================================================ the pattern

/-- The search finds every occurrence, and nothing else. -/
theorem occurs_iff (pattern code : List UInt8) :
    occurs pattern code = true ↔ pattern <:+: code := by
  induction code with
  | nil => rw [occurs, List.isEmpty_iff, List.infix_nil]
  | cons b rest ih =>
      rw [occurs, Bool.or_eq_true, List.isPrefixOf_iff_prefix, ih, List.infix_cons_iff]

/-- What occurs in the first bytes stands at an offset from which it ends
among them. -/
theorem infix_take_iff {pattern code : List UInt8} {n : Nat} :
    pattern <:+: code.take n ↔ ∃ i, i + pattern.length ≤ n ∧ pattern <+: code.drop i := by
  constructor
  · rintro ⟨before, after, heq⟩
    have hlength : (before ++ pattern ++ after).length ≤ n := by
      rw [heq, List.length_take]
      exact Nat.min_le_left _ _
    rw [List.length_append, List.length_append] at hlength
    have hcut : (code.drop before.length).take (n - before.length) = pattern ++ after := by
      rw [← List.drop_take, ← heq, List.append_assoc, List.drop_left]
    exact ⟨before.length, by omega,
      (List.prefix_append pattern after).trans (hcut ▸ List.take_prefix _ _)⟩
  · rintro ⟨i, hend, hat⟩
    have hcut : pattern = (code.take (i + pattern.length)).drop i := by
      rw [List.drop_take, Nat.add_sub_cancel_left]
      exact List.prefix_iff_eq_take.mp hat
    rw [hcut]
    exact (List.drop_suffix _ _).isInfix.trans (List.take_prefix_take_left hend).isInfix

/-- Reading as many bytes as a pattern has gives the pattern if it is
there. -/
theorem readCode_eq_iff {t : Trap} {address : Nat} (bytes : List UInt8) (hbase : t.codeBase ≤ address) :
    t.readCode address bytes.length = bytes ↔ t.Has address bytes := by
  rw [Trap.readCode, if_neg (Nat.not_lt.mpr hbase), Trap.Has, List.prefix_iff_eq_take]
  exact ⟨fun h => ⟨hbase, h.symm⟩, fun h => h.2.symm⟩

/-- A pattern is found in the code from `start` to `stop` if it stands
wholly between them. -/
theorem occurs_readCode_iff {t : Trap} {pattern : List UInt8} {start stop : Nat}
    (hbase : t.codeBase ≤ start) (hle : start ≤ stop) :
    occurs pattern (t.readCode start (stop - start)) = true
      ↔ ∃ a, start ≤ a ∧ a + pattern.length ≤ stop ∧ t.Has a pattern := by
  rw [Trap.readCode, if_neg (Nat.not_lt.mpr hbase), occurs_iff, infix_take_iff]
  constructor
  · rintro ⟨i, hend, hat⟩
    rw [List.drop_drop] at hat
    refine ⟨start + i, Nat.le_add_right _ _, by omega, by omega, ?_⟩
    rwa [Nat.sub_add_comm hbase]
  · rintro ⟨a, hstart, hend, -, hat⟩
    refine ⟨a - start, by omega, ?_⟩
    rwa [List.drop_drop, show start - t.codeBase + (a - start) = a - t.codeBase by omega]

/-- When a fault stands for a suspend check: at the test of the trigger,
with the load wholly inside the window and the method before it. -/
theorem testsTrigger_iff {isa : Isa} {range : CodeRange} {t : Trap}
    (hrange : range.contains t.pc = true) (hbase : t.codeBase ≤ range.start) :
    testsTrigger isa range t = true ↔ t.Has t.pc triggerTest
      ∧ ∃ a, max (t.pc - suspendWindow) range.start ≤ a
        ∧ a + (triggerLoad isa).length ≤ t.pc ∧ t.Has a (triggerLoad isa) := by
  rw [CodeRange.contains, Bool.and_eq_true, decide_eq_true_eq, decide_eq_true_eq] at hrange
  rw [testsTrigger, Bool.and_eq_true, decide_eq_true_eq, occurs_readCode_iff (by omega) (by omega)]
  exact and_congr_left' (readCode_eq_iff triggerTest (by omega))

/-- The pattern that is looked for is the load as it is encoded. -/
theorem triggerLoad_bytes : (X86.Instr.load .quad .rax (.gs (UInt32.ofNat
    (ThreadBlock.offset .eight .suspendTrigger).value))).bytes = triggerLoad .x86_64 := by
  decide

theorem triggerTest_bytes : (X86.Instr.testMem .rax (.base .rax 0)).bytes = triggerTest := by
  decide

-- ============================================================ the handler

section handler

/-- Work whose first step is known to succeed goes on after it. -/
theorem run_bind_ok {α β : Type} {x : Handling α} {f : α → Handling β} {s s₁ : Trapped} {a : α}
    (h : x.run s = .ok (a, s₁)) : (x >>= f).run s = (f a).run s₁ := by
  rw [StateT.run_bind, h]
  rfl

variable {isa : Isa} {range : CodeRange} {t : Trap} {record : ThreadRecord}

/-- A trap whose thread goes on in a routine and returns behind the test. -/
def suspended (t : Trap) (target : Routine) : Trap :=
  { t with
    sp := t.sp - t.wordBytes
    words := fun a => if a = t.sp - t.wordBytes then some (t.pc + 2) else t.words a
    resumeAt := some target }

variable (hisa : isa = .x86 ∨ isa = .x86_64) (hroom : t.wordBytes ≤ t.sp)
  (hnext : t.pc + 2 < wordLimit)

include hisa hroom hnext

theorem triggerFault_run (target : Routine) :
    (triggerFault isa range target).run ⟨t, record⟩ = .ok (if testsTrigger isa range t = true then
      (true, ⟨suspended t target, record⟩) else (false, ⟨t, record⟩)) := by
  have hword : (liftM (addWord t.pc 2) : Handling Nat).run ⟨t, record⟩
      = .ok (t.pc + 2, ⟨t, record⟩) := by
    rw [addWord, if_pos hnext]
    rfl
  have hpush : (push (t.pc + 2)).run ⟨t, record⟩ = .ok ((), ⟨{ t with
      sp := t.sp - t.wordBytes
      words := fun a => if a = t.sp - t.wordBytes then some (t.pc + 2) else t.words a }, record⟩) := by
    rw [push, StateT.run_bind, StateT.run_get, pure_bind, Trap.push, subWord, if_pos hroom]
    rfl
  have hx86 : triggerFault isa range target = (do
      let t := (← get).trap
      if testsTrigger isa range t then
        push (← addWord t.pc 2)
        onTrap (·.redirect target)
        return true
      else return false) := by
    rcases hisa with rfl | rfl <;> rfl
  rw [hx86, StateT.run_bind, StateT.run_get, pure_bind]
  dsimp only
  split
  · rw [run_bind_ok hword, run_bind_ok hpush]
    rfl
  · rfl

/-- What the handler does with a fault, given its routine. -/
theorem suspendCheck_run (htarget : record.table.fixed .testSuspend ≠ .null) :
    (suspendCheck isa range).run ⟨t, record⟩ = .ok (if testsTrigger isa range t = true then
      (true, ⟨suspended t (record.table.fixed .testSuspend), record.disarmTrigger⟩)
    else (false, ⟨t, record⟩)) := by
  have hroutine : (routine .suspendCheck).run ⟨t, record⟩
      = .ok (record.table.fixed .testSuspend, ⟨t, record⟩) := rfl
  have hfault : (triggerFault isa range (record.table.fixed .testSuspend)).run ⟨t, record⟩ = _ :=
    triggerFault_run hisa hroom hnext _
  rw [suspendCheck, run_bind_ok hroutine, if_neg htarget]
  split at hfault
  · next htest =>
      rw [run_bind_ok hfault, if_pos htest]
      rfl
  · next htest =>
      rw [run_bind_ok hfault, if_neg htest]
      rfl

end handler

end Fault

-- ============================================================ the manager

/-- With suspend checks in use their handler comes first, and only once. -/
theorem ImplicitChecks.handlers_suspend {checks : ImplicitChecks} (h : checks.suspend = true) :
    ∃ rest, checks.handlers = .suspendCheck :: rest ∧ .suspendCheck ∉ rest := by
  obtain ⟨null, suspend, overflow⟩ := checks
  cases h
  refine ⟨_, rfl, ?_⟩
  cases null <;> cases overflow <;> decide

namespace FaultManager

open Fault

/-- A manager that relies on suspend checks is shown a fault of a thread
running managed code in a known range. The thread has the routine that takes
over and room for a word on its stack, and the code is there to be read. -/
structure Shown (m : FaultManager) (t : Trap) (record : ThreadRecord) (range : CodeRange) :
    Prop where
  isa : m.isa = .x86 ∨ m.isa = .x86_64
  handlers : ∃ checks : ImplicitChecks, checks.suspend = true ∧ m.handlers = checks.handlers
  state : record.state = .runnable
  routine : record.table.fixed .testSuspend ≠ .null
  word : 0 < t.wordBytes
  room : t.wordBytes ≤ t.sp
  next : t.pc + 2 < wordLimit
  inside : m.range? t.pc = some range
  covers : t.codeBase ≤ range.start ∧ range.stop ≤ t.codeBase + t.code.length
    ∧ t.pc + 2 ≤ t.codeBase + t.code.length

section shown

variable {m : FaultManager} {t : Trap} {record : ThreadRecord} {range : CodeRange}
  (h : m.Shown t record range)

include h

/-- A recognised trigger decides the fault. -/
theorem Shown.handle_recognised (htest : testsTrigger m.isa range t = true) :
    m.handle t (some record) = .ok ⟨some .suspendCheck,
      suspended t (record.table.fixed .testSuspend), some record.disarmTrigger⟩ := by
  obtain ⟨checks, hsuspend, hhandlers⟩ := h.handlers
  obtain ⟨rest, hlist, -⟩ := ImplicitChecks.handlers_suspend hsuspend
  have hword := h.word
  have hroom := h.room
  have hrun : (FaultKind.suspendCheck.recover m.isa range).run ⟨t, record⟩ = _ :=
    suspendCheck_run h.isa h.room h.next h.routine
  rw [if_pos htest] at hrun
  rw [handle_run h.state (by omega) h.inside, hhandlers, hlist, tryHandlers, run_bind_ok hrun]
  rfl

/-- If it is not recognised, no other handler takes the fault for a suspend
check. -/
theorem Shown.handle_declined (htest : ¬testsTrigger m.isa range t = true) {o : FaultOutcome}
    (ho : m.handle t (some record) = .ok o) : o.handledBy ≠ some .suspendCheck := by
  obtain ⟨checks, hsuspend, hhandlers⟩ := h.handlers
  obtain ⟨rest, hlist, hother⟩ := ImplicitChecks.handlers_suspend hsuspend
  have hword := h.word
  have hroom := h.room
  have hrun : (FaultKind.suspendCheck.recover m.isa range).run ⟨t, record⟩ = _ :=
    suspendCheck_run h.isa h.room h.next h.routine
  rw [if_neg htest] at hrun
  rw [handle_run h.state (by omega) h.inside, hhandlers, hlist, tryHandlers, run_bind_ok hrun] at ho
  obtain ⟨⟨k, s⟩, hrest, hout⟩ := bind_eq_ok ho
  cases hout
  rintro rfl
  obtain ⟨before, after, heq, -⟩ := (tryHandlers_spec h.word rest _ hrest).1 _ rfl
  exact hother (heq ▸ List.mem_append_right _ List.mem_cons_self)

end shown

/-- Implicit suspend checks on x86 are recognised exactly inside their
window: at the test of the trigger, with its load wholly between the start
of the window (and of the method) and the test. The thread then goes on in
the routine that waits, with the address behind the test on its stack, and
its trigger is disarmed. Whatever code the assembler has put before, behind
and, up to 91 bytes, between the two instructions, the check is found. -/
theorem suspendCheck_window {m : FaultManager} {t : Trap} {record : ThreadRecord} {range : CodeRange}
    (h : m.Shown t record range) :
    ((∃ o, m.handle t (some record) = .ok o ∧ o.handledBy = some .suspendCheck)
        ↔ t.Has t.pc [0x85, 0x00]
          ∧ ∃ a, max (t.pc - 100) range.start ≤ a ∧ a + (triggerLoad m.isa).length ≤ t.pc
            ∧ t.Has a (triggerLoad m.isa))
      ∧ (∀ o, m.handle t (some record) = .ok o → o.handledBy = some .suspendCheck →
        o = ⟨some .suspendCheck, suspended t (record.table.fixed .testSuspend),
          some record.disarmTrigger⟩)
      ∧ ∀ before filler after : List UInt8, m.isa = .x86_64 → filler.length ≤ 91 →
        let load := X86.Instr.load .quad .rax
          (.gs (UInt32.ofNat (ThreadBlock.offset .eight .suspendTrigger).value))
        let test := X86.Instr.testMem .rax (.base .rax 0)
        t.code = before ++ load.bytes ++ filler ++ test.bytes ++ after →
        t.pc = t.codeBase + (before ++ load.bytes ++ filler).length →
        range.start ≤ t.codeBase + before.length →
        m.handle t (some record) = .ok ⟨some .suspendCheck,
          suspended t (record.table.fixed .testSuspend), some record.disarmTrigger⟩ := by
  have hrange : range.contains t.pc = true := by
    have hfound := h.inside
    rw [range?] at hfound
    simpa using List.find?_some hfound
  have hiff : testsTrigger m.isa range t = true ↔ t.Has t.pc [0x85, 0x00]
      ∧ ∃ a, max (t.pc - 100) range.start ≤ a ∧ a + (triggerLoad m.isa).length ≤ t.pc
        ∧ t.Has a (triggerLoad m.isa) :=
    testsTrigger_iff hrange h.covers.1
  refine ⟨?_, fun o ho hk => ?_, ?_⟩
  · rw [← hiff]
    constructor
    · rintro ⟨o, ho, hk⟩
      exact Decidable.byContradiction fun htest => h.handle_declined htest ho hk
    · intro htest
      exact ⟨_, h.handle_recognised htest, rfl⟩
  · by_cases htest : testsTrigger m.isa range t = true
    · rw [h.handle_recognised htest] at ho
      cases ho
      rfl
    · exact absurd hk (h.handle_declined htest ho)
  · intro before filler after hisa hfiller load test hcode hpc hstart
    have hload : load.bytes = triggerLoad m.isa := by
      rw [hisa]
      exact triggerLoad_bytes
    have hlength : load.bytes.length = 9 := by
      rw [hload, hisa]
      rfl
    rw [triggerTest_bytes] at hcode
    have hpc' : t.pc = t.codeBase + before.length + 9 + filler.length := by
      rw [hpc, List.length_append, List.length_append, hlength]
      omega
    refine h.handle_recognised (hiff.mpr ⟨?_, t.codeBase + before.length, ?_, ?_, ?_⟩)
    · have hsplit : t.code = before ++ load.bytes ++ filler ++ (triggerTest ++ after) := by
        rw [hcode, List.append_assoc]
      rw [hpc]
      exact Trap.has_of_append hsplit
    · omega
    · rw [← hload, hlength]
      omega
    · have hsplit : t.code = before
          ++ (triggerLoad m.isa ++ (filler ++ (triggerTest ++ after))) := by
        simp only [hcode, hload, List.append_assoc]
      exact Trap.has_of_append hsplit

/-- A trigger loaded four bytes before its test. -/
def triggered : Trap where
  pc := 0x100D
  sp := 0x7000
  faultAddress := 0
  wordBytes := 8
  codeBase := 0x1000
  code := triggerLoad .x86_64 ++ [0x90, 0x90, 0x90, 0x90] ++ triggerTest ++ [0xC3]

/-- The method that holds them. -/
def poller : CodeRange := ⟨0x1000, 0x1010, 0xABC0⟩

/-- A thread that polls its armed trigger is stopped, and returns behind the
test. -/
theorem suspendCheck_window_found :
    ((ofChecks .x86_64 ⟨true, true, true⟩).register poller).handle triggered
        (some runner.armTrigger)
      = .ok ⟨some .suspendCheck, suspended triggered (.service .testSuspend), some runner⟩ := by
  have hshown : ((ofChecks .x86_64 ⟨true, true, true⟩).register poller).Shown triggered
      runner.armTrigger poller := by
    refine ⟨.inr rfl, ⟨_, rfl, rfl⟩, rfl, ?_, by decide, by decide, by decide, rfl, by decide⟩
    exact fun h => nomatch h
  exact (suspendCheck_window hshown).2.2 [] [0x90, 0x90, 0x90, 0x90] [0xC3] rfl (by decide) (by decide)
    (by decide) (by decide)

end FaultManager

end Crossing
