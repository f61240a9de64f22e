import Crossing.Fault.Manager
import Crossing.Proofs.Yields

/-
What the fault manager does to a trapped thread. Handlers work on the trap
and on the thread's record in place, one after the other, so nothing but
their own code keeps a handler from leaving something behind before it
declines, or the next one from building on that.

`Verdict` is what each of the three handlers keeps to: either it declines
and everything is as it was, or the whole change is a `Recovered`. The
manager's list of handlers then reduces to its first member that does not
decline (`tryHandlers_spec`), which is therefore the only one that acts.
-/
namespace Crossing

-- ============================================================= effects

/-- Where a trapped thread goes on. -/
def Trap.resumesAt (t : Trap) : Routine := t.resumeAt.getD (.ofAddress t.pc)

namespace FaultKind

/-- The place in the order in which handlers are tried. -/
def rank : FaultKind → Nat
  | suspendCheck => 0
  | stackOverflow => 1
  | nullPointer => 2

/-- Words that recovery from a check leaves on the stack. -/
def wordsPushed (k : FaultKind) (isa : Isa) : Nat :=
  match isa, k with
  | .x86, nullPointer | .x86_64, nullPointer => 2
  | .x86, suspendCheck | .x86_64, suspendCheck => 1
  | _, _ => 0

/-- Bytes of the faulting instruction, behind which the thread returns. -/
def skipped (k : FaultKind) (isa : Isa) (range : CodeRange) (t : Trap) : Nat :=
  match isa, k with
  | .x86, nullPointer | .x86_64, nullPointer =>
      X86.instructionLength (t.readCode t.pc (min (range.stop - t.pc) Fault.lookahead)) isa.is64Bit
  | .x86, _ | .x86_64, _ => 2
  | _, _ => 4

end FaultKind

namespace Fault

/-- The stack after recovery from a check: the stack pointer is lower by the
words pushed, the first of them being the address to return to and the
second one the fault address, and no other word has changed. -/
structure Grown (isa : Isa) (range : CodeRange) (k : FaultKind) (t t' : Trap) : Prop where
  sp : t'.sp + k.wordsPushed isa * t.wordBytes = t.sp
  returns : 0 < k.wordsPushed isa →
    t'.words (t.sp - t.wordBytes) = some (t.pc + k.skipped isa range t)
  faulted : 1 < k.wordsPushed isa → t'.words (t.sp - 2 * t.wordBytes) = some t.faultAddress
  outside : ∀ a, (∀ i < k.wordsPushed isa, a ≠ t'.sp + i * t.wordBytes) → t'.words a = t.words a

/-- What recovery from one check does to a trapped thread, and all that it
does. -/
structure Recovered (isa : Isa) (range : CodeRange) (k : FaultKind) (s s' : Trapped) : Prop where
  target : s.thread.table.fixed k.entrypoint ≠ .null
  resumes : s'.trap.resumesAt = s.thread.table.fixed k.entrypoint
  stack : Grown isa range k s.trap s'.trap
  link : s'.trap.linkRegister =
    if isa = .arm64 ∧ k ≠ .stackOverflow then s.trap.pc + k.skipped isa range s.trap
    else s.trap.linkRegister
  argument : s'.trap.arguments 0 =
    if isa = .arm64 ∧ k = .nullPointer then s.trap.faultAddress else s.trap.arguments 0
  arguments : ∀ i, i ≠ 0 → s'.trap.arguments i = s.trap.arguments i
  rest : s'.trap.pc = s.trap.pc ∧ s'.trap.faultAddress = s.trap.faultAddress
    ∧ s'.trap.wordBytes = s.trap.wordBytes ∧ s'.trap.codeBase = s.trap.codeBase
    ∧ s'.trap.code = s.trap.code
  thread : s'.thread = if k = .suspendCheck then s.thread.disarmTrigger else s.thread

/-- What a handler may answer: that the trap is not its own, and then
nothing has changed, or a recovery. -/
def Verdict (isa : Isa) (range : CodeRange) (k : FaultKind) (s : Trapped) (r : Bool × Trapped) :
    Prop :=
  if r.1 then Recovered isa range k s r.2 else r.2 = s

-- =============================================================== steps

section Steps

variable {isa : Isa} {range : CodeRange} {k : FaultKind} {s : Trapped}

/-- A step of work on a trapped thread, and what follows it. -/
theorem yields_run_bind {α β : Type} {x : Handling α} {f : α → Handling β}
    {P : β × Trapped → Prop} (h : ∀ a s₁, x.run s = .ok (a, s₁) → Yields ((f a).run s₁) P) :
    Yields ((x >>= f).run s) P := by
  rw [StateT.run_bind]
  exact yields_bind fun r hr => h r.1 r.2 hr

theorem get_run {r : Trapped × Trapped} (h : (get : Handling Trapped).run s = .ok r) :
    r = (s, s) := by
  cases h
  rfl

theorem routine_run {r : Routine × Trapped} (h : (routine k).run s = .ok r) :
    r = (s.thread.table.fixed k.entrypoint, s) := by
  cases h
  rfl

theorem onTrap_run {f : Trap → Trap} {r : Unit × Trapped} (h : (onTrap f).run s = .ok r) :
    r = ((), { s with trap := f s.trap }) := by
  cases h
  rfl

theorem addWord_run {a b : Nat} {r : Nat × Trapped}
    (h : (liftM (addWord a b) : Handling Nat).run s = .ok r) : r = (a + b, s) := by
  unfold addWord at h
  split at h
  · cases h
    rfl
  · cases h

/-- A push that succeeds has room for its word. -/
theorem push_run {v : Nat} {r : Unit × Trapped} (h : (push v).run s = .ok r) :
    s.trap.wordBytes ≤ s.trap.sp ∧ r = ((), { s with trap := { s.trap with
      sp := s.trap.sp - s.trap.wordBytes
      words := fun a =>
        if a = s.trap.sp - s.trap.wordBytes then some v else s.trap.words a } }) := by
  unfold push at h
  rw [StateT.run_bind, StateT.run_get, pure_bind] at h
  unfold Trap.push subWord at h
  by_cases hroom : s.trap.wordBytes ≤ s.trap.sp
  · rw [if_pos hroom] at h
    cases h
    exact ⟨hroom, rfl⟩
  · rw [if_neg hroom] at h
    cases h

/-- A handler that ends here has declined, and nothing has changed. -/
theorem verdict_declined : Yields ((pure false : Handling Bool).run s) (Verdict isa range k s) :=
  yields_pure rfl

/-- Recovery that uses registers only leaves the stack alone. -/
theorem grown_none {t t' : Trap} (hnone : k.wordsPushed isa = 0) (hsp : t'.sp = t.sp)
    (hwords : t'.words = t.words) : Grown isa range k t t' where
  sp := by rw [hnone, hsp, Nat.zero_mul, Nat.add_zero]
  returns h := by omega
  faulted h := by omega
  outside a _ := by rw [hwords]

end Steps

-- ============================================================ handlers

section Handlers

variable {isa : Isa} {range : CodeRange} {s : Trapped}

/-- The last step of a null check on x86: the return address and the fault
address are pushed. -/
theorem nullPointer_pushes (hisa : isa = .x86 ∨ isa = .x86_64) (hword : 0 < s.trap.wordBytes)
    (htarget : s.thread.table.fixed FaultKind.nullPointer.entrypoint ≠ .null) {n : Nat}
    (hn : FaultKind.nullPointer.skipped isa range s.trap = n) :
    Yields (StateT.run (do
      push (← addWord s.trap.pc n)
      push s.trap.faultAddress
      onTrap (·.redirect (s.thread.table.fixed FaultKind.nullPointer.entrypoint))
      return true) s) (Verdict isa range .nullPointer s) := by
  have hpushed : FaultKind.nullPointer.wordsPushed isa = 2 := by
    rcases hisa with rfl | rfl <;> rfl
  have harm : isa ≠ .arm64 := by
    rcases hisa with rfl | rfl <;> decide
  refine yields_run_bind fun _ _ h₁ => ?_
  cases addWord_run h₁
  refine yields_run_bind fun _ _ h₂ => ?_
  obtain ⟨hroom, h₂⟩ := push_run h₂
  cases h₂
  refine yields_run_bind fun _ _ h₃ => ?_
  obtain ⟨hroom', h₃⟩ := push_run h₃
  cases h₃
  refine yields_run_bind fun _ _ h₄ => ?_
  cases onTrap_run h₄
  refine yields_pure (show Recovered _ _ _ _ _ from ?_)
  dsimp only at hroom'
  refine ⟨htarget, rfl, ⟨?_, fun _ => ?_, fun _ => ?_, fun a ha => ?_⟩, (if_neg (harm ·.1)).symm,
    (if_neg (harm ·.1)).symm, fun _ _ => rfl, ⟨rfl, rfl, rfl, rfl, rfl⟩, rfl⟩
  · rw [hpushed]
    dsimp only [Trap.redirect]
    omega
  · dsimp only [Trap.redirect]
    rw [if_neg (by omega), if_pos rfl, hn]
  · dsimp only [Trap.redirect]
    rw [if_pos (by omega)]
  · rw [hpushed] at ha
    have hsecond := ha 0 (by omega)
    have hfirst := ha 1 (by omega)
    dsimp only [Trap.redirect] at hsecond hfirst ⊢
    rw [if_neg (by omega), if_neg (by omega)]

theorem nullPointer_verdict (hword : 0 < s.trap.wordBytes) :
    Yields ((nullPointer isa range).run s) (Verdict isa range .nullPointer s) := by
  unfold nullPointer
  refine yields_run_bind fun _ _ h₁ => ?_
  cases get_run h₁
  refine yields_run_bind fun _ _ h₂ => ?_
  cases routine_run h₂
  split
  · next hcond =>
      cases isa with
      | arm | riscv64 => exact verdict_declined
      | x86 =>
          dsimp only
          split
          · exact verdict_declined
          · next n hn => exact nullPointer_pushes (.inl rfl) hword hcond.2.2 hn
      | x86_64 =>
          dsimp only
          split
          · exact verdict_declined
          · next n hn => exact nullPointer_pushes (.inr rfl) hword hcond.2.2 hn
      | arm64 =>
          refine yields_run_bind fun _ _ h₃ => ?_
          cases addWord_run h₃
          refine yields_run_bind fun _ _ h₄ => ?_
          cases onTrap_run h₄
          refine yields_run_bind fun _ _ h₅ => ?_
          cases onTrap_run h₅
          refine yields_run_bind fun _ _ h₆ => ?_
          cases onTrap_run h₆
          refine yields_pure (show Recovered _ _ _ _ _ from ?_)
          exact ⟨hcond.2.2, rfl, grown_none rfl rfl rfl, rfl, rfl, fun i hi => if_neg hi,
            ⟨rfl, rfl, rfl, rfl, rfl⟩, rfl⟩
  · exact verdict_declined

/-- A trigger that is recognised, once it is disarmed as well, is a
recovery. -/
theorem triggerFault_yields
    (htarget : s.thread.table.fixed FaultKind.suspendCheck.entrypoint ≠ .null) :
    Yields ((triggerFault isa range (s.thread.table.fixed FaultKind.suspendCheck.entrypoint)).run s)
      fun r =>
        if r.1 then
          Recovered isa range .suspendCheck s { r.2 with thread := r.2.thread.disarmTrigger }
        else r.2 = s := by
  -- both x86 sets push the address behind the two bytes of the test
  have hx86 : isa = .x86 ∨ isa = .x86_64 → Yields (StateT.run (do
      push (← addWord s.trap.pc 2)
      onTrap (·.redirect (s.thread.table.fixed FaultKind.suspendCheck.entrypoint))
      return true) s) fun r =>
        if r.1 then
          Recovered isa range .suspendCheck s { r.2 with thread := r.2.thread.disarmTrigger }
        else r.2 = s := by
    intro hisa
    have hpushed : FaultKind.suspendCheck.wordsPushed isa = 1 := by
      rcases hisa with rfl | rfl <;> rfl
    have hskipped : FaultKind.suspendCheck.skipped isa range s.trap = 2 := by
      rcases hisa with rfl | rfl <;> rfl
    have harm : isa ≠ .arm64 := by
      rcases hisa with rfl | rfl <;> decide
    refine yields_run_bind fun _ _ h₁ => ?_
    cases addWord_run h₁
    refine yields_run_bind fun _ _ h₂ => ?_
    obtain ⟨hroom, h₂⟩ := push_run h₂
    cases h₂
    refine yields_run_bind fun _ _ h₃ => ?_
    cases onTrap_run h₃
    refine yields_pure (show Recovered _ _ _ _ _ from ?_)
    refine ⟨htarget, rfl, ⟨?_, fun _ => ?_, fun h => ?_, fun a ha => ?_⟩, (if_neg (harm ·.1)).symm,
      (if_neg (harm ·.1)).symm, fun _ _ => rfl, ⟨rfl, rfl, rfl, rfl, rfl⟩, rfl⟩
    · rw [hpushed]
      dsimp only [Trap.redirect]
      omega
    · dsimp only [Trap.redirect]
      rw [if_pos rfl, hskipped]
    · omega
    · have hfirst := ha 0 (by omega)
      dsimp only [Trap.redirect] at hfirst ⊢
      rw [if_neg (by omega)]
  unfold triggerFault
  refine yields_run_bind fun _ _ h₁ => ?_
  cases get_run h₁
  cases isa with
  | arm | riscv64 => exact yields_pure rfl
  | x86 =>
      dsimp only
      split
      · exact hx86 (.inl rfl)
      · exact yields_pure rfl
  | x86_64 =>
      dsimp only
      split
      · exact hx86 (.inr rfl)
      · exact yields_pure rfl
  | arm64 =>
      dsimp only
      split
      · refine yields_run_bind fun _ _ h₂ => ?_
        cases addWord_run h₂
        refine yields_run_bind fun _ _ h₃ => ?_
        cases onTrap_run h₃
        refine yields_run_bind fun _ _ h₄ => ?_
        cases onTrap_run h₄
        refine yields_pure (show Recovered _ _ _ _ _ from ?_)
        exact ⟨htarget, rfl, grown_none rfl rfl rfl, rfl, rfl, fun _ _ => rfl,
          ⟨rfl, rfl, rfl, rfl, rfl⟩, rfl⟩
      · exact yields_pure rfl

theorem suspendCheck_verdict :
    Yields ((suspendCheck isa range).run s) (Verdict isa range .suspendCheck s) := by
  unfold suspendCheck
  refine yields_run_bind fun _ _ h₁ => ?_
  cases routine_run h₁
  split
  · exact verdict_declined
  · next htarget =>
      refine yields_run_bind fun recognised s₁ h₂ => ?_
      have hfault := triggerFault_yields htarget _ h₂
      cases recognised with
      | false =>
          have hsame : s₁ = s := hfault
          rw [hsame]
          exact verdict_declined
      | true => exact yields_pure hfault

theorem stackOverflow_verdict :
    Yields ((stackOverflow isa).run s) (Verdict isa range .stackOverflow s) := by
  unfold stackOverflow
  refine yields_run_bind fun _ _ h₁ => ?_
  cases get_run h₁
  refine yields_run_bind fun _ _ h₂ => ?_
  cases routine_run h₂
  dsimp only
  split
  · next hcond =>
      refine yields_run_bind fun _ _ h₃ => ?_
      cases onTrap_run h₃
      have hnone : FaultKind.stackOverflow.wordsPushed isa = 0 := by
        cases isa <;> rfl
      refine yields_pure (show Recovered _ _ _ _ _ from ?_)
      exact ⟨hcond.2, rfl, grown_none hnone rfl rfl, (if_neg (·.2 rfl)).symm,
        (if_neg (by simp)).symm, fun _ _ => rfl, ⟨rfl, rfl, rfl, rfl, rfl⟩, rfl⟩
  · exact verdict_declined

/-- Every handler declines without a trace or recovers. -/
theorem recover_verdict (k : FaultKind) (hword : 0 < s.trap.wordBytes) :
    Yields ((k.recover isa range).run s) (Verdict isa range k s) := by
  cases k with
  | nullPointer => exact nullPointer_verdict hword
  | suspendCheck => exact suspendCheck_verdict
  | stackOverflow => exact stackOverflow_verdict

end Handlers

end Fault

-- ============================================================= manager

namespace ImplicitChecks

/-- Handlers are listed in the order in which they are to be tried. -/
theorem handlers_ordered (checks : ImplicitChecks) :
    checks.handlers.Pairwise (·.rank < ·.rank) := by
  obtain ⟨null, suspend, overflow⟩ := checks
  cases null <;> cases suspend <;> cases overflow <;> decide

theorem mem_before (checks : ImplicitChecks) {before after : List FaultKind} {j k : FaultKind}
    (hlist : checks.handlers = before ++ k :: after) (hj : j ∈ checks.handlers)
    (hlt : j.rank < k.rank) : j ∈ before := by
  have hordered := checks.handlers_ordered
  rw [hlist] at hj hordered
  have hafter := (List.pairwise_append.mp hordered).2.1
  rcases List.mem_append.mp hj with hj | hj
  · exact hj
  · rcases List.mem_cons.mp hj with rfl | hj
    · omega
    · have := (List.pairwise_cons.mp hafter).1 j hj
      omega

end ImplicitChecks

namespace FaultManager

open Fault

variable {isa : Isa} {range : CodeRange} {s : Trapped}

/-- The run over the handlers: all of them declined and nothing has
changed, or one recovered from the state at the start, and those before it
declined. -/
theorem tryHandlers_spec (hword : 0 < s.trap.wordBytes) (ks : List FaultKind) :
    Yields ((tryHandlers isa range ks).run s) fun r =>
      (∀ k, r.1 = some k → ∃ before after, ks = before ++ k :: after
        ∧ (∀ j ∈ before, (j.recover isa range).run s = .ok (false, s))
        ∧ (k.recover isa range).run s = .ok (true, r.2))
      ∧ (r.1 = none → r.2 = s) := by
  induction ks with
  | nil => exact yields_pure ⟨fun _ h => (nomatch h), fun _ => rfl⟩
  | cons k ks ih =>
      refine yields_run_bind fun recognised s₁ h₁ => ?_
      have hverdict := recover_verdict k hword _ h₁
      cases recognised with
      | true =>
          refine yields_pure ⟨?_, fun h => nomatch h⟩
          intro j hj
          cases hj
          exact ⟨[], ks, rfl, fun _ hi => (nomatch hi), h₁⟩
      | false =>
          have hsame : s₁ = s := hverdict
          subst hsame
          intro r hr
          obtain ⟨hsome, hnone⟩ := ih r hr
          refine ⟨fun j hj => ?_, hnone⟩
          obtain ⟨before, after, rfl, hdeclined, hrecovered⟩ := hsome j hj
          refine ⟨k :: before, after, rfl, ?_, hrecovered⟩
          intro i hi
          rcases List.mem_cons.mp hi with rfl | hi
          · exact h₁
          · exact hdeclined i hi

/-- A fault in a known range goes to the handlers. -/
theorem handle_run {m : FaultManager} {t : Trap} {record : ThreadRecord}
    (hstate : record.state = .runnable) (hsp : t.sp ≠ 0) (hrange : m.range? t.pc = some range) :
    m.handle t (some record) = (do
      let (k, s) ← (tryHandlers m.isa range m.handlers).run ⟨t, record⟩
      return ⟨k, s.trap, some s.thread⟩) := by
  unfold handle
  simp only [hstate, hsp, hrange, ne_eq, not_true_eq_false, or_self, if_false]

/-- A manager with a single handler does what the handler does. -/
theorem handle_alone {ranges : List CodeRange} {k : FaultKind} {t : Trap} {record : ThreadRecord}
    (hstate : record.state = .runnable) (hsp : t.sp ≠ 0)
    (hrange : ranges.find? (·.contains t.pc) = some range) {recognised : Bool}
    (h : (k.recover isa range).run ⟨t, record⟩ = .ok (recognised, s)) :
    handle ⟨isa, [k], ranges⟩ t (some record)
      = .ok ⟨if recognised then some k else none, s.trap, some s.thread⟩ := by
  rw [handle_run (m := ⟨isa, [k], ranges⟩) hstate hsp hrange]
  simp only [tryHandlers, StateT.run_bind, h]
  cases recognised <;> rfl

/-- A fault that nobody recognises leaves no trace. One that is recognised
was taken by a thread running managed code, inside a known range; the
handlers that come first in the order have declined it, and what has
happened is the work of one handler alone, as if the manager had no
other. -/
theorem handle_exact {checks : ImplicitChecks} {ranges : List CodeRange} {t : Trap}
    {thread : Option ThreadRecord} {o : FaultOutcome}
    (hword : ∃ i : Isa, t.wordBytes = i.wordBytes)
    (h : handle ⟨isa, checks.handlers, ranges⟩ t thread = .ok o) :
    (o.handledBy = none → o.trap = t ∧ o.thread = thread)
      ∧ ∀ k, o.handledBy = some k →
        ∃ record range record', thread = some record ∧ o.thread = some record'
          ∧ record.state = .runnable ∧ t.sp ≠ 0
          ∧ range ∈ ranges ∧ range.contains t.pc = true
          ∧ k ∈ checks.handlers
          ∧ (∀ j ∈ checks.handlers, j.rank < k.rank →
              handle ⟨isa, [j], ranges⟩ t thread = .ok ⟨none, t, thread⟩)
          ∧ handle ⟨isa, [k], ranges⟩ t thread = .ok o
          ∧ Recovered isa range k ⟨t, record⟩ ⟨o.trap, record'⟩ := by
  have hpos : 0 < t.wordBytes := by
    obtain ⟨i, hi⟩ := hword
    rw [hi]
    cases i <;> decide
  cases thread with
  | none =>
      cases h
      exact ⟨fun _ => ⟨rfl, rfl⟩, fun _ hk => nomatch hk⟩
  | some record =>
      by_cases hrun : record.state ≠ .runnable ∨ t.sp = 0
      · rw [handle, if_pos hrun] at h
        cases h
        exact ⟨fun _ => ⟨rfl, rfl⟩, fun _ hk => nomatch hk⟩
      · obtain ⟨hstate, hsp⟩ : record.state = .runnable ∧ t.sp ≠ 0 := by
          simpa using hrun
        cases hrange : ranges.find? (·.contains t.pc) with
        | none =>
            have hforeign : range? ⟨isa, checks.handlers, ranges⟩ t.pc = none := hrange
            rw [handle, if_neg hrun, hforeign] at h
            cases h
            exact ⟨fun _ => ⟨rfl, rfl⟩, fun _ hk => nomatch hk⟩
        | some range =>
            rw [handle_run (m := ⟨isa, checks.handlers, ranges⟩) hstate hsp hrange] at h
            obtain ⟨⟨found, s⟩, hrun, hout⟩ := bind_eq_ok h
            cases hout
            obtain ⟨hsome, hnone⟩ := tryHandlers_spec hpos _ _ hrun
            refine ⟨fun hk => ?_, fun k hk => ?_⟩
            · have hsame : s = ⟨t, record⟩ := hnone hk
              rw [hsame]
              exact ⟨rfl, rfl⟩
            · obtain ⟨before, after, hlist, hdeclined, hrecovered⟩ := hsome k hk
              cases hk
              have hlist : checks.handlers = before ++ k :: after := hlist
              refine ⟨record, range, s.thread, rfl, rfl, hstate, hsp,
                List.mem_of_find?_eq_some hrange, ?_, ?_, ?_, ?_, ?_⟩
              · simpa using List.find?_some hrange
              · rw [hlist]
                exact List.mem_append_right _ List.mem_cons_self
              · intro j hj hlt
                have hbefore := checks.mem_before hlist hj hlt
                exact handle_alone hstate hsp hrange (hdeclined j hbefore)
              · exact handle_alone hstate hsp hrange hrecovered
              · exact recover_verdict k hpos _ hrecovered

-- ------------------------------------------------ a load through null

/-- A thread that loads from eight bytes behind a null reference. -/
def nullLoad : Trap where
  pc := 0x1000
  sp := 0x7000
  faultAddress := 8
  wordBytes := 8
  codeBase := 0x1000
  code := [0x8B, 0x47, 0x08, 0xC3]
  words := fun a => if a = 0x7000 then some 0xABC0 else none

/-- A thread running managed code. -/
def runner : ThreadRecord := (ThreadRecord.fresh 1 "main" .x86_64 0).setState .runnable

/-- The method that holds the load. -/
def loader : CodeRange := ⟨0x1000, 0x1004, 0xABC0⟩

/-- With all three checks in use, the load is declined twice and then
recognised: the thread goes on in the routine that throws, with the address
behind the load and the fault address on its stack. -/
theorem handle_exact_null : ∃ o,
    ((ofChecks .x86_64 ⟨true, true, true⟩).register loader).handle nullLoad (some runner) = .ok o
    ∧ o.handledBy = some .nullPointer
    ∧ (∀ j, j = .suspendCheck ∨ j = .stackOverflow →
        handle ⟨.x86_64, [j], [loader]⟩ nullLoad (some runner) = .ok ⟨none, nullLoad, some runner⟩)
    ∧ o.trap.resumesAt = .service .throwNullPointerFromSignal
    ∧ o.trap.sp + 2 * 8 = 0x7000
    ∧ o.trap.words 0x6FF8 = some 0x1003 ∧ o.trap.words 0x6FF0 = some 8
    ∧ o.trap.words 0x7000 = some 0xABC0 ∧ o.thread = some runner := by
  obtain ⟨o, hrun, hk⟩ : ∃ o, ((ofChecks .x86_64 ⟨true, true, true⟩).register loader).handle
      nullLoad (some runner) = .ok o ∧ o.handledBy = some .nullPointer := ⟨_, rfl, rfl⟩
  obtain ⟨record, range, record', hrecord, hrecord', -, -, hrange, -, -, hdeclined, -,
      hrecovered⟩ :=
    (handle_exact ⟨.x86_64, rfl⟩ (show handle ⟨.x86_64, ImplicitChecks.handlers ⟨true, true, true⟩,
      [loader]⟩ nullLoad (some runner) = .ok o from hrun)).2 .nullPointer hk
  cases hrecord
  cases List.mem_singleton.mp hrange
  have hsp : o.trap.sp + 2 * 8 = 0x7000 := hrecovered.stack.sp
  refine ⟨o, hrun, hk, fun j hj => ?_, hrecovered.resumes, hsp,
    hrecovered.stack.returns (by decide), hrecovered.stack.faulted (by decide), ?_, ?_⟩
  · rcases hj with rfl | rfl
    · exact hdeclined _ (by decide) (by decide)
    · exact hdeclined _ (by decide) (by decide)
  · refine hrecovered.stack.outside _ fun i (hi : i < 2) => ?_
    show 0x7000 ≠ o.trap.sp + i * 8
    omega
  · have hthread : record' = runner := hrecovered.thread
    rw [hrecord', hthread]

end FaultManager

end Crossing
