import Crossing.Proofs.Fault.Trigger
import Crossing.Proofs.X86.Locality

/-
Implicit null checks on x86: where the thread returns to. The handler is
shown a copy of the code that is cut off twice, at the end of the method and
behind `lookahead` bytes, and makes a return address of what it measures
there. Since the length of an instruction does not depend on what lies
behind it, and none is told of one that is cut short, the copy can only make
the handler decline: what it accepts is an instruction of the method, and
the thread returns right behind it.

The length meant is the one that is computed, `X86.instructionLength`.
-/
namespace Crossing

open X86

/-- The code that can be read from the faulting instruction to the end of
the method. -/
def Trap.ahead (t : Trap) (range : CodeRange) : List UInt8 := t.readCode t.pc (range.stop - t.pc)

namespace Fault

-- ======================================================== what is shown

section shown

variable {t : Trap} {range : CodeRange}

theorem ahead_length (hbase : t.codeBase ≤ t.pc) (hcode : range.stop ≤ t.codeBase + t.code.length) :
    (t.ahead range).length = range.stop - t.pc := by
  rw [Trap.ahead, Trap.readCode, if_neg (Nat.not_lt.mpr hbase), List.length_take, List.length_drop]
  omega

theorem ahead_length_le : (t.ahead range).length ≤ range.stop - t.pc := by
  rw [Trap.ahead, Trap.readCode]
  split
  · exact Nat.zero_le _
  · exact List.length_take_le _ _

/-- What the handler reads is the first bytes of the method's code. -/
theorem readCode_min (n : Nat) :
    t.readCode t.pc (min (range.stop - t.pc) n) = (t.ahead range).take n := by
  rw [Trap.ahead, Trap.readCode, Trap.readCode]
  split
  · rw [List.take_nil]
  · rw [List.take_take, Nat.min_comm]

/-- What the handler measures: the length of the instruction, unless more
bytes would have to be read than are. -/
theorem skipped_nullPointer {isa : Isa} (hisa : isa = .x86 ∨ isa = .x86_64) :
    FaultKind.nullPointer.skipped isa range t
      = if instructionLength (t.ahead range) isa.is64Bit ≤ lookahead
        then instructionLength (t.ahead range) isa.is64Bit else 0 := by
  rw [← instructionLength_take, ← readCode_min]
  rcases hisa with rfl | rfl <;> rfl

end shown

-- ========================================================== the handler

section handler

variable {isa : Isa} {range : CodeRange} {s : Trapped}

/-- When the handler takes a fault for a null check: at a low address, in a
frame of the method, at an instruction whose length it knows. -/
theorem nullPointer_accepts (hisa : isa = .x86 ∨ isa = .x86_64) :
    Yields ((nullPointer isa range).run s) fun r => r.1 = true →
      s.trap.faultAddress < nullLimit ∧ s.trap.words s.trap.sp = some range.method
        ∧ FaultKind.nullPointer.skipped isa range s.trap ≠ 0 := by
  unfold nullPointer
  refine yields_run_bind fun _ _ h₁ => ?_
  cases get_run h₁
  refine yields_run_bind fun _ _ h₂ => ?_
  cases routine_run h₂
  split
  · next hcond =>
      obtain ⟨hlow, hframe, -⟩ := hcond
      have hmeasured (n : Nat) (hn : FaultKind.nullPointer.skipped isa range s.trap = n + 1) :
          FaultKind.nullPointer.skipped isa range s.trap ≠ 0 := by
        rw [hn]
        exact Nat.succ_ne_zero n
      rcases hisa with rfl | rfl
      · dsimp only
        split
        · exact yields_pure nofun
        · next n hn => exact fun _ _ _ => ⟨hlow, hframe, hmeasured n hn⟩
      · dsimp only
        split
        · exact yields_pure nofun
        · next n hn => exact fun _ _ _ => ⟨hlow, hframe, hmeasured n hn⟩
  · exact yields_pure nofun

-- ------------------------------------------------------------- answers

theorem addWord_ok {a b : Nat} (h : a + b < wordLimit) :
    (liftM (addWord a b) : Handling Nat).run s = .ok (a + b, s) := by
  rw [addWord, if_pos h]
  rfl

/-- A push for which there is room succeeds. -/
theorem push_ok {v : Nat} (hroom : s.trap.wordBytes ≤ s.trap.sp) :
    ∃ s₁, (push v).run s = .ok ((), s₁) ∧ s₁.trap.sp = s.trap.sp - s.trap.wordBytes
      ∧ s₁.trap.wordBytes = s.trap.wordBytes := by
  refine ⟨{ s with trap := { s.trap with
    sp := s.trap.sp - s.trap.wordBytes
    words := fun a => if a = s.trap.sp - s.trap.wordBytes then some v else s.trap.words a } }, ?_,
    rfl, rfl⟩
  rw [push, StateT.run_bind, StateT.run_get, pure_bind, Trap.push, subWord, if_pos hroom]
  rfl

variable (hisa : isa = .x86 ∨ isa = .x86_64) (hroom : 2 * s.trap.wordBytes ≤ s.trap.sp)

include hisa hroom

theorem nullPointer_answers
    (hnext : s.trap.pc + FaultKind.nullPointer.skipped isa range s.trap < wordLimit) :
    ∃ r, (nullPointer isa range).run s = .ok r := by
  have hpushes (n : Nat) (hn : FaultKind.nullPointer.skipped isa range s.trap = n) :
      ∃ r, (do
        push (← addWord s.trap.pc n)
        push s.trap.faultAddress
        onTrap (·.redirect (s.thread.table.fixed FaultKind.nullPointer.entrypoint))
        return true : Handling Bool).run s = .ok r := by
    obtain ⟨s₁, hfirst, hsp, hword⟩ := push_ok (s := s) (v := s.trap.pc + n) (by omega)
    obtain ⟨s₂, hsecond, -, -⟩ := push_ok (s := s₁) (v := s.trap.faultAddress) (by omega)
    rw [run_bind_ok (addWord_ok (hn ▸ hnext)), run_bind_ok hfirst, run_bind_ok hsecond]
    exact ⟨_, rfl⟩
  have hroutine : (routine .nullPointer).run s
      = .ok (s.thread.table.fixed FaultKind.nullPointer.entrypoint, s) := rfl
  rw [nullPointer, StateT.run_bind, StateT.run_get, pure_bind, run_bind_ok hroutine]
  dsimp only
  split
  · rcases hisa with rfl | rfl
    · dsimp only
      split
      · exact ⟨_, rfl⟩
      · next n hn => exact hpushes _ hn
    · dsimp only
      split
      · exact ⟨_, rfl⟩
      · next n hn => exact hpushes _ hn
  · exact ⟨_, rfl⟩

omit hisa hroom in
theorem stackOverflow_answers : ∃ r, (stackOverflow isa).run s = .ok r := by
  have hroutine : (routine .stackOverflow).run s
      = .ok (s.thread.table.fixed FaultKind.stackOverflow.entrypoint, s) := rfl
  rw [stackOverflow, StateT.run_bind, StateT.run_get, pure_bind, run_bind_ok hroutine]
  dsimp only
  split
  · exact ⟨_, rfl⟩
  · exact ⟨_, rfl⟩

/-- With room for two words and addresses that are words, every handler
comes to an answer. -/
theorem recover_answers (k : FaultKind) (hnext : s.trap.pc + 2 < wordLimit)
    (hstop : s.trap.pc + FaultKind.nullPointer.skipped isa range s.trap < wordLimit) :
    ∃ r, (k.recover isa range).run s = .ok r := by
  cases k with
  | nullPointer => exact nullPointer_answers hisa hroom hstop
  | stackOverflow => exact stackOverflow_answers
  | suspendCheck =>
      by_cases htarget : s.thread.table.fixed .testSuspend = .null
      · refine ⟨(false, s), ?_⟩
        have hroutine : (routine .suspendCheck).run s
            = .ok (s.thread.table.fixed .testSuspend, s) := rfl
        show (suspendCheck isa range).run s = _
        rw [suspendCheck, run_bind_ok hroutine, if_pos htarget]
        rfl
      · exact ⟨_, suspendCheck_run hisa (by omega) hnext htarget⟩

end handler

end Fault

-- ========================================================== the manager

namespace FaultManager

open Fault

section manager

variable {m : FaultManager} {t : Trap} {thread : Option ThreadRecord} {record : ThreadRecord}
  {range : CodeRange} {k : FaultKind} {o : FaultOutcome}

/-- A fault that is handled was handled by one of the handlers, from the
state in which the thread was trapped. -/
theorem handle_handled (hword : 0 < t.wordBytes) (ho : m.handle t thread = .ok o)
    (hk : o.handledBy = some k) :
    ∃ record range s, thread = some record ∧ m.range? t.pc = some range
      ∧ (k.recover m.isa range).run ⟨t, record⟩ = .ok (true, s) ∧ o.trap = s.trap := by
  cases thread with
  | none =>
      cases ho
      cases hk
  | some record =>
      by_cases hrun : record.state ≠ .runnable ∨ t.sp = 0
      · rw [handle, if_pos hrun] at ho
        cases ho
        cases hk
      · obtain ⟨hstate, hsp⟩ : record.state = .runnable ∧ t.sp ≠ 0 := by
          simpa using hrun
        cases hrange : m.range? t.pc with
        | none =>
            rw [handle, if_neg hrun, hrange] at ho
            cases ho
            cases hk
        | some range =>
            rw [handle_run hstate hsp hrange] at ho
            obtain ⟨⟨found, s⟩, htried, hout⟩ := bind_eq_ok ho
            cases hout
            obtain ⟨-, -, -, -, hrecovered⟩ := (tryHandlers_spec hword _ _ htried).1 k hk
            exact ⟨record, range, s, rfl, rfl, hrecovered, rfl⟩

/-- If every handler comes to an answer, so does the manager. -/
theorem tryHandlers_answers {isa : Isa} {s : Trapped} (hword : 0 < s.trap.wordBytes)
    (hanswers : ∀ k : FaultKind, ∃ r, (k.recover isa range).run s = .ok r) (ks : List FaultKind) :
    ∃ r, (tryHandlers isa range ks).run s = .ok r := by
  induction ks with
  | nil => exact ⟨_, rfl⟩
  | cons k ks ih =>
      obtain ⟨⟨recognised, s₁⟩, hrun⟩ := hanswers k
      rw [tryHandlers, run_bind_ok hrun]
      cases recognised with
      | true => exact ⟨_, rfl⟩
      | false =>
          have hsame : s₁ = s := recover_verdict k hword _ hrun
          rw [hsame]
          exact ih

/-- A manager on x86 is shown a fault inside a method. The method's code is
there to be read, and the stack has room for two words, of any size. -/
structure Asked (m : FaultManager) (t : Trap) (range : CodeRange) : Prop where
  isa : m.isa = .x86 ∨ m.isa = .x86_64
  word : 0 < t.wordBytes
  room : 2 * t.wordBytes ≤ t.sp
  inside : m.range? t.pc = some range
  covers : t.codeBase ≤ range.start ∧ range.stop ≤ t.codeBase + t.code.length

theorem Asked.contains (h : m.Asked t range) : range.start ≤ t.pc ∧ t.pc < range.stop := by
  have hfound := h.inside
  rw [range?] at hfound
  have hcontains := List.find?_some hfound
  simpa [CodeRange.contains] using hcontains

/-- What is measured lies in the method. -/
theorem Asked.skipped_le (h : m.Asked t range) :
    t.pc + FaultKind.nullPointer.skipped m.isa range t ≤ range.stop := by
  have hle : FaultKind.nullPointer.skipped m.isa range t ≤ range.stop - t.pc := by
    rw [skipped_nullPointer h.isa]
    by_cases hzero : instructionLength (t.ahead range) m.isa.is64Bit = 0
    · rw [hzero, ite_self]
      exact Nat.zero_le _
    · have hown := (instructionLength_own hzero).1
      have hahead : (t.ahead range).length ≤ range.stop - t.pc := ahead_length_le
      split
      · omega
      · exact Nat.zero_le _
  have hinside := h.contains.2
  omega

/-- A fault that is taken for a null check, and what is measured there. -/
theorem Asked.accepted (h : m.Asked t range) (ho : m.handle t thread = .ok o)
    (hk : o.handledBy = some .nullPointer) :
    t.faultAddress < nullLimit ∧ t.words t.sp = some range.method
      ∧ FaultKind.nullPointer.skipped m.isa range t ≠ 0
      ∧ Grown m.isa range .nullPointer t o.trap := by
  obtain ⟨record, range', s, -, hrange, hrecovered, htrap⟩ := handle_handled h.word ho hk
  rw [h.inside] at hrange
  cases hrange
  have hrecovery : Recovered m.isa range .nullPointer ⟨t, record⟩ s :=
    recover_verdict .nullPointer h.word _ hrecovered
  obtain ⟨hlow, hframe, hlength⟩ := nullPointer_accepts h.isa _ hrecovered rfl
  rw [htrap]
  exact ⟨hlow, hframe, hlength, hrecovery.stack⟩

theorem Asked.answers (h : m.Asked t range) (hnext : t.pc + 2 < wordLimit)
    (hstop : range.stop < wordLimit) : ∃ o, m.handle t thread = .ok o := by
  cases thread with
  | none => exact ⟨_, rfl⟩
  | some record =>
      by_cases hrun : record.state ≠ .runnable ∨ t.sp = 0
      · rw [handle, if_pos hrun]
        exact ⟨_, rfl⟩
      · obtain ⟨hstate, hsp⟩ : record.state = .runnable ∧ t.sp ≠ 0 := by
          simpa using hrun
        have hbehind := Nat.lt_of_le_of_lt h.skipped_le hstop
        have hword : 0 < (Trapped.mk t record).trap.wordBytes := h.word
        obtain ⟨r, htried⟩ :=
          tryHandlers_answers hword (fun k => recover_answers h.isa h.room k hnext hbehind) m.handlers
        rw [handle_run hstate hsp h.inside, htried]
        exact ⟨_, rfl⟩

end manager

/-- A recovered null check returns right behind one instruction of the same
method. When a fault inside a method is taken for one, the first word pushed
is an address in the method or at its end, as far behind the fault as the
method's instruction there is long; reading few bytes of it makes no
difference. The second word is the fault address, a low one, and the frame
was that of the method. A fault at an instruction that does not end inside
the method, whatever the bytes behind are, is not taken for a null check.
There is an answer in any case. -/
theorem nullCheck_returns {m : FaultManager} {t : Trap} {range : CodeRange} (h : m.Asked t range)
    (thread : Option ThreadRecord) :
    (∀ o, m.handle t thread = .ok o → o.handledBy = some .nullPointer →
        ∃ r, o.trap.words (t.sp - t.wordBytes) = some r ∧ t.pc < r ∧ r ≤ range.stop
          ∧ r - t.pc = instructionLength (t.ahead range) m.isa.is64Bit
          ∧ o.trap.words (t.sp - 2 * t.wordBytes) = some t.faultAddress
          ∧ o.trap.sp = t.sp - 2 * t.wordBytes
          ∧ t.faultAddress < 4096 ∧ t.words t.sp = some range.method)
      ∧ (t.ahead range).length = range.stop - t.pc
      ∧ (instructionLength ((t.ahead range).take 16) m.isa.is64Bit ≠ 0 →
          instructionLength ((t.ahead range).take 16) m.isa.is64Bit
            = instructionLength (t.ahead range) m.isa.is64Bit)
      ∧ (∀ more, range.stop - t.pc < instructionLength (t.ahead range ++ more) m.isa.is64Bit →
          ∀ o, m.handle t thread = .ok o → o.handledBy ≠ some .nullPointer)
      ∧ (t.pc + 2 < wordLimit → range.stop < wordLimit → ∃ o, m.handle t thread = .ok o) := by
  have hinside := h.contains
  have hahead : (t.ahead range).length = range.stop - t.pc :=
    ahead_length (Nat.le_trans h.covers.1 hinside.1) h.covers.2
  have hpushed : FaultKind.nullPointer.wordsPushed m.isa = 2 := by
    rcases h.isa with hisa | hisa <;> rw [hisa] <;> rfl
  refine ⟨fun o ho hk => ?_, hahead, fun hread => ?_, fun more hlong o ho hk => ?_, h.answers⟩
  · obtain ⟨hlow, hframe, hlength, hgrown⟩ := h.accepted ho hk
    have hmeasured : FaultKind.nullPointer.skipped m.isa range t
        = instructionLength (t.ahead range) m.isa.is64Bit := by
      rw [skipped_nullPointer h.isa] at hlength ⊢
      split
      · rfl
      · next hlong => exact absurd (if_neg hlong) hlength
    have hbehind := h.skipped_le
    have hsp := hgrown.sp
    rw [hpushed] at hsp
    refine ⟨_, hgrown.returns (by omega), by omega, hbehind, ?_, hgrown.faulted (by omega), by omega,
      hlow, hframe⟩
    rw [Nat.add_sub_cancel_left, hmeasured]
  · rw [instructionLength_take] at hread ⊢
    split
    · rfl
    · next hlong => exact absurd (if_neg hlong) hread
  · obtain ⟨-, -, hlength, -⟩ := h.accepted ho hk
    have hcut : instructionLength (t.ahead range) m.isa.is64Bit = 0 := by
      have htake := instructionLength_take (t.ahead range ++ more) m.isa.is64Bit (range.stop - t.pc)
      rwa [if_neg (Nat.not_le.mpr hlong), ← hahead, List.take_left] at htake
    apply hlength
    rw [skipped_nullPointer h.isa, hcut, ite_self]

/-- A method that ends inside the load. -/
def cutLoader : CodeRange := ⟨0x1000, 0x1002, 0xABC0⟩

/-- A load of three bytes through null: the thread returns behind it if all
three belong to the method, and is left alone if the third does not. -/
theorem nullCheck_returns_load :
    (∃ o, ((ofChecks .x86_64 ⟨true, true, true⟩).register loader).handle nullLoad (some runner) = .ok o
        ∧ o.handledBy = some .nullPointer ∧ o.trap.words 0x6FF8 = some 0x1003
        ∧ o.trap.words 0x6FF0 = some 8 ∧ o.trap.sp = 0x6FF0)
      ∧ ∃ o, ((ofChecks .x86_64 ⟨true, true, true⟩).register cutLoader).handle nullLoad (some runner)
          = .ok o
        ∧ o.handledBy ≠ some .nullPointer := by
  have hwhole : ((ofChecks .x86_64 ⟨true, true, true⟩).register loader).Asked nullLoad loader :=
    ⟨.inr rfl, by decide, by decide, rfl, by decide⟩
  have hcut : ((ofChecks .x86_64 ⟨true, true, true⟩).register cutLoader).Asked nullLoad cutLoader :=
    ⟨.inr rfl, by decide, by decide, rfl, by decide⟩
  constructor
  · obtain ⟨o, ho, hk⟩ : ∃ o, ((ofChecks .x86_64 ⟨true, true, true⟩).register loader).handle nullLoad
        (some runner) = .ok o ∧ o.handledBy = some .nullPointer := ⟨_, rfl, rfl⟩
    obtain ⟨r, hfirst, habove, -, hlength, hsecond, hsp, -, -⟩ :=
      (nullCheck_returns hwhole (some runner)).1 o ho hk
    have hthree : instructionLength (nullLoad.ahead loader) true = 3 := by decide
    have hr : r = 0x1003 := by
      have hlength : r - 0x1000 = instructionLength (nullLoad.ahead loader) true := hlength
      have habove : 0x1000 < r := habove
      omega
    exact ⟨o, ho, hk, hr ▸ hfirst, hsecond, hsp⟩
  · obtain ⟨-, -, -, hdeclined, hanswers⟩ := nullCheck_returns hcut (some runner)
    obtain ⟨o, ho⟩ := hanswers (by decide) (by decide)
    exact ⟨o, ho, hdeclined [0x08] (by decide) o ho⟩

end FaultManager

end Crossing
