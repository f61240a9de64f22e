import Crossing.Argument.Convention
import Crossing.Proofs.Glue.Program
import Crossing.Proofs.Processor.A64
import Crossing.Proofs.Processor.X86
import Crossing.Proofs.Thread.Block

/-
Leaving managed code and coming back, inline. A stub tries to swap its
thread's state word in place and branches to its slow path when the word is
not the one it expects. `Switches` says what this comes to on any processor;
x86-64 does it by one locked exchange, with a result in RAX out of the way
meanwhile, ARM64 by compare-and-swap or by a loop around an exclusive store.

All that a sequence does to memory is `ThreadBlock.left` or
`ThreadBlock.entered`, which is what the runtime does to the record that the
block mirrors.
-/
namespace Crossing

-- ============================================================ switches

namespace Glue

/-- A processor as glue code sees it. -/
structure Processor (ι σ : Type) where
  exec : ι → σ → Option (Effect σ)
  memory : σ → Memory
  /-- Where the block of the current thread is. -/
  thread : σ → UInt64
  /-- What the register that a handle names holds. -/
  content : σ → Register → Nat

/-- The current thread and one register are what they were. -/
structure Processor.Keeps {ι σ : Type} (P : Processor ι σ) (kept : Register) (s s' : σ) : Prop where
  thread : P.thread s' = P.thread s
  content : P.content s' kept = P.content s kept

section Switches

variable {ι σ : Type} {P : Processor ι σ} {code : List (Item ι)} {slow : Nat} {expected : UInt32}
  {change : Memory → UInt64 → Memory} {kept kept' : σ → σ → Prop}

/-- From any state of the processor, the code ends. It falls through if the
thread's word is the one expected, and has then made the change to memory;
otherwise it branches to `slow` and leaves memory alone. In either case the
states before and after are related by `kept`. -/
def Switches (P : Processor ι σ) (code : List (Item ι)) (slow : Nat) (expected : UInt32)
    (change : Memory → UInt64 → Memory) (kept : σ → σ → Prop) : Prop :=
  ∀ s : σ,
    if (P.memory s).read32 (ThreadBlock.wordAt (P.thread s)) = expected then
      ∃ s', Ends P.exec code s (.through s') ∧ P.memory s' = change (P.memory s) (P.thread s)
        ∧ kept s s'
    else ∃ s', Ends P.exec code s (.branched slow s') ∧ P.memory s' = P.memory s ∧ kept s s'

theorem Switches.mono (h : Switches P code slow expected change kept)
    (hkept : ∀ s s', kept s s' → kept' s s') : Switches P code slow expected change kept' := by
  intro s
  have hs := h s
  split
  · next hword =>
      rw [if_pos hword] at hs
      obtain ⟨s', hends, hmemory, hs'⟩ := hs
      exact ⟨s', hends, hmemory, hkept s s' hs'⟩
  · next hword =>
      rw [if_neg hword] at hs
      obtain ⟨s', hends, hmemory, hs'⟩ := hs
      exact ⟨s', hends, hmemory, hkept s s' hs'⟩

end Switches

end Glue

-- ============================================================== x86-64

namespace Glue.X86

open Crossing.X86

def processor : Processor Instr Cpu where
  exec := exec
  memory := (·.memory)
  thread := (·.gs)
  content := Cpu.content

/-- What a transition leaves alone; `keep` says that RAX holds a result. -/
structure Untouched (keep : Bool) (s s' : Cpu) : Prop where
  gs : s'.gs = s.gs
  xmm : s'.xmm = s.xmm
  rax : keep = true → s'.reg .rax = s.reg .rax

theorem runnableToNative_switches (slow : Nat) :
    Switches processor ((runnableToNative slow).map .instr) slow ThreadState.runnable.word
      ThreadBlock.left (Untouched false) := by
  intro s
  let code := (runnableToNative slow).map Item.instr
  split
  · next hword =>
      have hruns : Runs exec code code s (.through _) :=
        .next exec_clear <| .next rfl <| .next (exec_exchange hword.symm)
          <| .next (exec_jumpNotZero_of_zero rfl) <| .next rfl .done
      exact ⟨_, hruns.ends, rfl, rfl, rfl, nofun⟩
  · next hword =>
      have hruns : Runs exec code code s (.branched slow _) :=
        .next exec_clear <| .next rfl <| .next (exec_compare (Ne.symm hword))
          <| .leave (exec_jumpNotZero rfl) (target?_instrs slow _)
      exact ⟨_, hruns.ends, rfl, rfl, rfl, nofun⟩

/-- Returning to managed code with the scratch registers of the
convention. -/
def reentry (slow : Nat) (keep : Bool) : List Instr :=
  (if keep then [.moveQuad .rbp .rax] else [])
    ++ [.loadImm .rax nativeWord, .xor .rbx .rbx, .lockCompareExchange flagsMem .rbx]
    ++ (if keep then [.moveQuad .rax .rbp] else [])
    ++ [.jumpIf .notZero slow, .load .quad .rbx (slotMem .mutatorLock),
      .store .quad (slotMem .heldMutatorLock) .rbx]

theorem reentry_switches (slow : Nat) (keep : Bool) :
    Switches processor ((reentry slow keep).map .instr) slow ThreadState.native.word
      ThreadBlock.entered (Untouched keep) := by
  intro s
  let code := (reentry slow keep).map Item.instr
  have hentered := (ThreadBlock.entered_eq s.memory s.gs).symm
  split
  · next hword =>
      cases keep with
      | true =>
          have hruns : Runs exec code code s (.through _) :=
            .next rfl <| .next rfl <| .next exec_clear <| .next (exec_exchange hword.symm)
              <| .next rfl <| .next (exec_jumpNotZero_of_zero rfl) <| .next rfl <| .next rfl .done
          exact ⟨_, hruns.ends, hentered, rfl, rfl, fun _ => rfl⟩
      | false =>
          have hruns : Runs exec code code s (.through _) :=
            .next rfl <| .next exec_clear <| .next (exec_exchange hword.symm)
              <| .next (exec_jumpNotZero_of_zero rfl) <| .next rfl <| .next rfl .done
          exact ⟨_, hruns.ends, hentered, rfl, rfl, nofun⟩
  · next hword =>
      have hslow := target?_instrs slow (reentry slow keep)
      cases keep with
      | true =>
          -- the flags of the exchange outlive the moves around it
          have hruns : Runs exec code code s (.branched slow _) :=
            .next rfl <| .next rfl <| .next exec_clear <| .next (exec_compare (Ne.symm hword))
              <| .next rfl <| .leave (exec_jumpNotZero rfl) hslow
          exact ⟨_, hruns.ends, rfl, rfl, rfl, fun _ => rfl⟩
      | false =>
          have hruns : Runs exec code code s (.branched slow _) :=
            .next rfl <| .next exec_clear <| .next (exec_compare (Ne.symm hword))
              <| .leave (exec_jumpNotZero rfl) hslow
          exact ⟨_, hruns.ends, rfl, rfl, rfl, nofun⟩

/-- The registers that native code returns results in. -/
theorem resultRegister_mem (ret : Option ValueType) :
    Convention.x86_64.resultRegister ret ∈ [Register.none, Reg.rax.handle, xmmHandle 0] := by
  rcases ret with _ | t
  · decide
  · cases t <;> decide

/-- RAX is kept just when it holds the result. -/
theorem nativeToRunnable_switches (slow : Nat) (ret : Option ValueType) :
    let result := Convention.x86_64.resultRegister ret
    ∃ code, nativeToRunnable slow [Reg.rbx.handle, Reg.rbp.handle, Reg.r12.handle] result = .ok code
      ∧ Switches processor (code.map .instr) slow ThreadState.native.word ThreadBlock.entered
        (processor.Keeps result) := by
  intro result
  have hresult : result ∈ [Register.none, Reg.rax.handle, xmmHandle 0] := resultRegister_mem ret
  clear_value result
  simp only [List.mem_cons, List.not_mem_nil, or_false] at hresult
  rcases hresult with rfl | rfl | rfl
  · exact ⟨_, rfl, (reentry_switches slow false).mono fun s s' h => ⟨h.gs, rfl⟩⟩
  · refine ⟨_, rfl, (reentry_switches slow true).mono fun s s' h => ⟨h.gs, ?_⟩⟩
    exact congrArg UInt64.toNat (h.rax rfl)
  · refine ⟨_, rfl, (reentry_switches slow false).mono fun s s' h => ⟨h.gs, ?_⟩⟩
    exact congrArg (fun xmm => (xmm 0).toNat) h.xmm

end Glue.X86

-- =============================================================== ARM64

namespace Glue.A64

open Crossing.A64

def processor : Processor Instr Cpu where
  exec := exec
  memory := (·.memory)
  thread := fun s => s.x .thread
  content := Cpu.content

/-- All registers are what they were but the two that glue code may always
clobber. -/
structure Untouched (s s' : Cpu) : Prop where
  x : ∀ r, r ≠ .ip0 → r ≠ .ip1 → s'.x r = s.x r
  v : s'.v = s.v

variable {s s' : Cpu}

theorem Untouched.trans {s₁ : Cpu} (h₁ : Untouched s s₁) (h : Untouched s₁ s') : Untouched s s' where
  x r h0 h1 := (h.x r h0 h1).trans (h₁.x r h0 h1)
  v := h.v.trans h₁.v

theorem Untouched.thread (h : Untouched s s') : s'.x .thread = s.x .thread :=
  h.x .thread (by decide) (by decide)

/-- A result that the transition accepts is in neither of the two. -/
theorem checkResult_spec {result : Register} {r : Reg} (hresult : checkResult result = .ok ())
    (hview : result.a64View = .ok (.x r) ∨ result.a64View = .ok (.w r)) : r ≠ .ip0 ∧ r ≠ .ip1 := by
  have hsome : result.isSome = true := by
    by_cases hid : result.id = -1
    · simp [Register.a64View, Register.isNone, hid] at hview
    · simp [Register.isSome, hid]
  have hfree : (if r = .ip0 ∨ r = .ip1 then throw (.returnOverlapsScratch result) else return () :
      Except Violation Unit) = .ok () := by
    simp only [checkResult, if_pos hsome] at hresult
    rcases hview with hview | hview
    · rwa [hview] at hresult
    · rwa [hview] at hresult
  split at hfree
  · cases hfree
  · next hr => exact not_or.mp hr

theorem checkResult_resultRegister (ret : Option ValueType) :
    checkResult (Convention.arm64.resultRegister ret) = .ok () := by
  rcases ret with _ | t
  · rfl
  · cases t <;> rfl

theorem Untouched.keeps (h : Untouched s s') {result : Register}
    (hresult : checkResult result = .ok ()) : processor.Keeps result s s' := by
  have hcore {r : Reg} (hview : result.a64View = .ok (.x r) ∨ result.a64View = .ok (.w r)) :
      s'.x r = s.x r := by
    obtain ⟨h0, h1⟩ := checkResult_spec hresult hview
    exact h.x r h0 h1
  refine ⟨h.thread, ?_⟩
  simp only [processor, Cpu.content]
  split
  · next hview => rw [hcore (.inl hview)]
  · next hview => rw [hcore (.inr hview)]
  · rw [h.v]
  · rw [h.v]
  · rfl

/-- With compare-and-swap as one instruction. -/
theorem runnableToNative_lse_switches (slow next : Nat) :
    Switches processor (runnableToNative true slow next).items slow ThreadState.runnable.word
      ThreadBlock.left Untouched := by
  intro s
  let code := (runnableToNative true slow next).items
  have hseen := UInt32.toUInt32_toUInt64 (s.memory.read32 (s.x .thread))
  rw [ThreadBlock.wordAt_eq]
  split
  · next hword =>
      have hruns : Runs exec code code s (.through _) :=
        .next rfl <| .next rfl <| .next (exec_casal hword)
          <| .next (exec_branchNotZero_of_zero (hseen.trans hword)) <| .next rfl .done
      refine ⟨_, hruns.ends, ?_, fun r h0 h1 => ?_, rfl⟩
      · rw [ThreadBlock.left, ThreadBlock.publish, ThreadBlock.wordAt_eq]
        rfl
      · simp [h0, h1]
  · next hword =>
      have hruns : Runs exec code code s (.branched slow _) :=
        .next rfl <| .next rfl <| .next (exec_casal_of_ne hword)
          <| .leave (exec_branchNotZero (mt hseen.symm.trans hword)) (target?_instrs slow _)
      refine ⟨_, hruns.ends, rfl, fun r h0 h1 => ?_, rfl⟩
      simp [h0, h1]

theorem nativeToRunnable_lse_switches (slow next : Nat) :
    Switches processor (nativeToRunnable true slow next).items slow ThreadState.native.word
      ThreadBlock.entered Untouched := by
  intro s
  let code := (nativeToRunnable true slow next).items
  have hseen := UInt32.toUInt32_toUInt64 (s.memory.read32 (s.x .thread))
  rw [ThreadBlock.wordAt_eq]
  split
  · next hword =>
      have hruns : Runs exec code code s (.through _) :=
        .next rfl <| .next (exec_casal hword) <| .next rfl <| .next rfl
          <| .next (exec_branchNotEqual_of_zero (decide_eq_true (hseen.trans hword)))
          <| .next rfl <| .next rfl .done
      refine ⟨_, hruns.ends, ?_, fun r h0 h1 => ?_, rfl⟩
      · rw [ThreadBlock.entered_eq, ThreadBlock.wordAt_eq]
        rfl
      · simp [h0, h1]
  · next hword =>
      have hruns : Runs exec code code s (.branched slow _) :=
        .next rfl <| .next (exec_casal_of_ne hword) <| .next rfl <| .next rfl
          <| .leave (exec_branchNotEqual (decide_eq_false (mt hseen.symm.trans hword)))
            (target?_instrs slow _)
      refine ⟨_, hruns.ends, rfl, fun r h0 h1 => ?_, rfl⟩
      simp [h0, h1]

section Loop

variable {slow next : Nat} {rest : List (Item Instr)} {expected : UInt32}
  {change : Memory → UInt64 → Memory}

/-- A loop that tries again after each failure of its store. -/
theorem loop_switches
    (hlast : ∀ s : Cpu, s.memory.read32 (s.x .thread) = expected → s.failures = 0 →
      ∃ s', Runs exec (.bind next :: rest) rest s (.through s')
        ∧ s'.memory = change s.memory (s.x .thread) ∧ Untouched s s')
    (hagain : ∀ (s : Cpu) (n : Nat), s.memory.read32 (s.x .thread) = expected → s.failures = n + 1 →
      ∃ s₁, (∀ out, Runs exec (.bind next :: rest) rest s₁ out →
          Runs exec (.bind next :: rest) rest s out)
        ∧ s₁.failures = n ∧ s₁.memory = s.memory ∧ Untouched s s₁)
    (hslow : ∀ s : Cpu, s.memory.read32 (s.x .thread) ≠ expected →
      ∃ s', Runs exec (.bind next :: rest) rest s (.branched slow s') ∧ s'.memory = s.memory
        ∧ Untouched s s') :
    Switches processor (.bind next :: rest) slow expected change Untouched := by
  -- on the number of failures to come
  have hall (n : Nat) : ∀ s : Cpu, s.failures = n → s.memory.read32 (s.x .thread) = expected →
      ∃ s', Runs exec (.bind next :: rest) rest s (.through s')
        ∧ s'.memory = change s.memory (s.x .thread) ∧ Untouched s s' := by
    induction n with
    | zero => exact fun s hnone hword => hlast s hword hnone
    | succ n ih =>
        intro s hsome hword
        obtain ⟨s₁, hback, hfailures, hmemory, h₁⟩ := hagain s n hword hsome
        obtain ⟨s', hruns, hchange, h'⟩ := ih s₁ hfailures (by rw [hmemory, h₁.thread, hword])
        exact ⟨s', hback _ hruns, by rw [hchange, hmemory, h₁.thread], h₁.trans h'⟩
  intro s
  rw [ThreadBlock.wordAt_eq]
  split
  · next hword =>
      obtain ⟨s', hruns, hs'⟩ := hall s.failures s rfl hword
      exact ⟨s', Runs.ends (.bind hruns), hs'⟩
  · next hword =>
      obtain ⟨s', hruns, hs'⟩ := hslow s hword
      exact ⟨s', Runs.ends (.bind hruns), hs'⟩

/-- The loop binds its own label only. -/
theorem target?_loop (h : slow ≠ next) (is : List Instr) :
    target? slow (.bind next :: is.map .instr) = none := by
  rw [target?, if_neg (Ne.symm h), target?_instrs]

end Loop

/-- With a loop around an exclusive load and store. -/
theorem runnableToNative_loop_switches {slow next : Nat} (hslow : slow ≠ next) :
    Switches processor (runnableToNative false slow next).items slow ThreadState.runnable.word
      ThreadBlock.left Untouched := by
  have hseen (s : Cpu) := UInt32.toUInt32_toUInt64 (s.memory.read32 (s.x .thread))
  refine loop_switches ?_ ?_ ?_
  · intro s hword hnone
    refine ⟨_, .next rfl <| .next rfl <| .next (exec_branchNotZero_of_zero ((hseen s).trans hword))
      <| .next (exec_store rfl rfl hnone) <| .next (exec_branchNotZero_of_zero rfl)
      <| .next rfl .done, ?_, fun r h0 h1 => ?_, rfl⟩
    · rw [ThreadBlock.left, ThreadBlock.publish, ThreadBlock.wordAt_eq]
      rfl
    · simp [h0, h1]
  · intro s n hword hsome
    refine ⟨_, fun out hruns => .next rfl <| .next rfl
        <| .next (exec_branchNotZero_of_zero ((hseen s).trans hword))
        <| .next (exec_store_of_failure rfl rfl hsome)
        <| .jump (exec_branchNotZero (show (1 : UInt64).toUInt32 ≠ 0 by decide)) (if_pos rfl) hruns,
      rfl, rfl, fun r h0 h1 => ?_, rfl⟩
    simp [h0, h1]
  · intro s hword
    refine ⟨_, .next rfl <| .next rfl
      <| .leave (exec_branchNotZero (mt (hseen s).symm.trans hword)) (target?_loop hslow _),
      rfl, fun r h0 h1 => ?_, rfl⟩
    simp [h0, h1]

theorem nativeToRunnable_loop_switches {slow next : Nat} (hslow : slow ≠ next) :
    Switches processor (nativeToRunnable false slow next).items slow ThreadState.native.word
      ThreadBlock.entered Untouched := by
  have hseen (s : Cpu) := UInt32.toUInt32_toUInt64 (s.memory.read32 (s.x .thread))
  refine loop_switches ?_ ?_ ?_
  · intro s hword hnone
    refine ⟨_, .next rfl <| .next rfl <| .next rfl
      <| .next (exec_branchNotEqual_of_zero (decide_eq_true ((hseen s).trans hword)))
      <| .next (exec_store rfl rfl hnone) <| .next (exec_branchNotZero_of_zero rfl)
      <| .next rfl <| .next rfl .done, ?_, fun r h0 h1 => ?_, rfl⟩
    · rw [ThreadBlock.entered_eq, ThreadBlock.wordAt_eq]
      rfl
    · simp [h0, h1]
  · intro s n hword hsome
    refine ⟨_, fun out hruns => .next rfl <| .next rfl <| .next rfl
        <| .next (exec_branchNotEqual_of_zero (decide_eq_true ((hseen s).trans hword)))
        <| .next (exec_store_of_failure rfl rfl hsome)
        <| .jump (exec_branchNotZero (show (1 : UInt64).toUInt32 ≠ 0 by decide)) (if_pos rfl) hruns,
      rfl, rfl, fun r h0 h1 => ?_, rfl⟩
    simp [h0, h1]
  · intro s hword
    refine ⟨_, .next rfl <| .next rfl <| .next rfl
      <| .leave (exec_branchNotEqual (decide_eq_false (mt (hseen s).symm.trans hword)))
        (target?_loop hslow _),
      rfl, fun r h0 h1 => ?_, rfl⟩
    simp [h0, h1]

end Glue.A64

-- ========================================================= refinement

namespace Glue

namespace Target

def convention : Target → Convention
  | x86_64 => .x86_64
  | arm64 _ => .arm64

/-- The code of an operation is a switch that keeps one register. -/
def Emits (t : Target) (op : Op) (next slow : Nat) (expected : UInt32)
    (change : Memory → UInt64 → Memory) (kept : Register) : Prop :=
  match t with
  | .x86_64 => ∃ code, X86.lower op next = .ok code
      ∧ Switches X86.processor code.items slow expected change (X86.processor.Keeps kept)
  | .arm64 lse => ∃ code, A64.lower lse op next = .ok code
      ∧ Switches A64.processor code.items slow expected change (A64.processor.Keeps kept)

end Target

variable {t : Target} {slow : Label} {next : Nat}

theorem emits_runnableToNative (hslow : slow.index < next) (scratch : List Register) :
    t.Emits (.runnableToNative slow scratch) next slow.index ThreadState.runnable.word
      ThreadBlock.left .none := by
  cases t with
  | x86_64 =>
      exact ⟨_, rfl, (X86.runnableToNative_switches slow.index).mono fun s s' h => ⟨h.gs, rfl⟩⟩
  | arm64 lse =>
      refine ⟨_, rfl, Switches.mono ?_ fun s s' h => A64.Untouched.keeps h rfl⟩
      cases lse with
      | true => exact A64.runnableToNative_lse_switches slow.index next
      | false => exact A64.runnableToNative_loop_switches (Nat.ne_of_lt hslow)

theorem emits_nativeToRunnable (hslow : slow.index < next) (ret : Option ValueType) :
    let c := t.convention
    t.Emits (.nativeToRunnable slow [c.scratch.1, c.scratch.2.1, c.scratch.2.2] (c.resultRegister ret))
      next slow.index ThreadState.native.word ThreadBlock.entered (c.resultRegister ret) := by
  cases t with
  | x86_64 =>
      obtain ⟨code, hcode, hswitches⟩ := X86.nativeToRunnable_switches slow.index ret
      refine ⟨.ofInstrs next code, ?_, hswitches⟩
      exact congrArg (Except.map (Emission.ofInstrs next)) hcode
  | arm64 lse =>
      have hresult : A64.checkResult ((Target.arm64 lse).convention.resultRegister ret) = .ok () :=
        A64.checkResult_resultRegister ret
      refine ⟨A64.nativeToRunnable lse slow.index next, ?_,
        Switches.mono ?_ fun s s' h => A64.Untouched.keeps h hresult⟩
      · simp only [A64.lower, hresult]
        rfl
      · cases lse with
        | true => exact A64.nativeToRunnable_lse_switches slow.index next
        | false => exact A64.nativeToRunnable_loop_switches (Nat.ne_of_lt hslow)

/-- The inline transitions are the runtime's. Whatever assembler a program
has come to and whichever of its labels the slow path is at, the code falls
through just on the word that the runtime would swap at once, makes the same
change to the block of the thread, and keeps the result of native code;
on any other word it branches and has done nothing to the block. -/
theorem Built.transitions_refine {ls : List Label} {a : Assembler} (h : Built t ls a)
    (hslow : slow ∈ ls) :
    let c := t.convention
    let scratch := [c.scratch.1, c.scratch.2.1, c.scratch.2.2]
    ((∀ spare, t.Emits (.runnableToNative slow spare) a.buffer.labels.size slow.index
        ThreadState.runnable.word ThreadBlock.left .none)
      ∧ World.Performs .leave .runnable .native false ThreadBlock.left)
    ∧ (∀ ret, t.Emits (.nativeToRunnable slow scratch (c.resultRegister ret)) a.buffer.labels.size
        slow.index ThreadState.native.word ThreadBlock.entered (c.resultRegister ret))
      ∧ World.Performs .enter .native .runnable true ThreadBlock.entered := by
  intro c scratch
  have hindex : slow.index < a.buffer.labels.size := h.sound.handed slow hslow
  refine ⟨⟨?_, World.leave_performs⟩, ?_, World.enter_performs⟩
  · intro spare
    exact emits_runnableToNative hindex spare
  · intro ret
    exact emits_nativeToRunnable hindex ret

/-- A slow path at the first label of a program for ARM64 without
compare-and-swap, and a thread that is about to leave managed code. -/
theorem Built.transitions_refine_first : ∃ a, Built (.arm64 false) [⟨.arm64, 0, 0⟩] a
    ∧ (Target.arm64 false).Emits (.runnableToNative ⟨.arm64, 0, 0⟩ []) 1 0
        ThreadState.runnable.word ThreadBlock.left .none
    ∧ (Target.arm64 false).Emits (.nativeToRunnable ⟨.arm64, 0, 0⟩ [⟨21⟩, ⟨22⟩, ⟨23⟩] ⟨0⟩) 1 0
        ThreadState.native.word ThreadBlock.entered ⟨0⟩
    ∧ ∃ w w', World.Reachable w ∧ (w.actors 0).agenda = [.leave]
        ∧ w.follow [.step 0, .step 0, .step 0] = some w' ∧ (w'.actors 0).agenda = [] := by
  have hbuilt : Built (.arm64 false) [⟨.arm64, 0, 0⟩]
      { target := .arm64 false, owner := 0, buffer := { labels := #[none] } } :=
    .createLabel (.fresh 0)
  have hreach : World.Reachable ((World.follow { isa := .arm64 } [.start 0 (.attach "worker"),
      .step 0, .step 0, .step 0, .step 0, .start 0 .leave]).get rfl) :=
    (World.Reachable.fresh .arm64).follow (Option.some_get _).symm
  obtain ⟨⟨hleave, hruntime⟩, henter, -⟩ := hbuilt.transitions_refine List.mem_cons_self
  obtain ⟨w', hfollow, -, hagenda, -⟩ := hruntime _ 0 _ _ hreach rfl rfl rfl
  exact ⟨_, hbuilt, hleave [], henter (some .long), _, w', hreach, rfl, hfollow, hagenda⟩

end Glue

end Crossing
