import Crossing.Proofs.Glue.Feasible
import Crossing.Proofs.Glue.FrameSize
import Crossing.Stub

/-
What a stub is made of. Of its operations most are the same for every
signature (`Fixed`); the others depend on where arguments and the outgoing
area lie (`Uses`). The file shows that there are no others, that every
label a stub names is bound, and none twice, that the frame is adjusted up
and down in pairs, and how many operations there are at most.
-/
namespace Crossing.Stub.Plan

open Glue Convention

variable {p : Plan}

-- =========================================================== operations

/-- The register that the class is loaded into, by its 32-bit handle. -/
def root (p : Plan) : Register := p.abi.sized p.abi.scratch.2.2 4

/-- All operations of a stub in order. -/
def ops (p : Plan) : List Op := p.entry ++ p.callNative ++ p.exit ++ p.slowPaths p.root

/-- Operations that depend on the signature through its result only. -/
inductive Fixed (p : Plan) : Op → Prop where
  | build {method : Register} (h : method = .none ∨ method = p.abi.method) :
      Fixed p (.buildFrame p.abi.frameSize method p.abi.calleeSaves)
  | remove (maySuspend : Bool) :
      Fixed p (.removeFrame p.abi.frameSize p.abi.calleeSaves maySuspend)
  | publish : Fixed p (.storeStackPointer (p.slot .topOfManagedStack) p.options.tagSp)
  | env : Fixed p (.loadPointerFromThread (p.abi.sized p.abi.firstNative 8) (p.slot .jniEnv))
  | callMethod {base : Register} (h : base = p.abi.hidden ∨ base = p.abi.scratch.2.2) :
      Fixed p (.call base ((MethodRecord.jniEntryOffset p.abi.isa.pointerSize).recast .plain))
  | callRuntime (e : Entrypoint) : Fixed p (p.entrypoint e)
  | loadClass : Fixed p (.loadRoot p.root p.abi.scratch.2.2 MethodRecord.declaringClassOffset)
  | moveResult (h : p.signature.result = some .reference) :
      Fixed p (.move p.abi.firstNative p.resultRegister 8)
  | signExtend (n : Nat) (h : p.signature.result = some .byte ∧ n = 1
      ∨ p.signature.result = some .short ∧ n = 2) : Fixed p (.signExtend p.resultRegister n)
  | zeroExtend (n : Nat) (h : p.signature.result = some .boolean ∧ n = 1
      ∨ p.signature.result = some .char ∧ n = 2) : Fixed p (.zeroExtend p.resultRegister n)
  | leave : Fixed p (.runnableToNative (p.label .startSlow) p.scratchList)
  | comeBack : Fixed p (.nativeToRunnable (p.label .endSlow) p.scratchList p.resultRegister)
  | decode (h : p.signature.result = some .reference) :
      Fixed p (.decodeReference p.resultRegister (p.label .decodeSlow) (p.label .decodeResume))
  | poll : Fixed p (.suspendCheck (p.label .suspendSlow))
  | pollException : Fixed p (.exceptionPoll (p.label .exceptionSlow))
  | deliver : Fixed p .deliverException
  | testMarking : Fixed p (.testMarking (p.label .classSlow) .notZero)
  | testClass : Fixed p (.testMarkBit p.abi.scratch.2.2 (p.label .classResume) .notZero)
  | jump (m : Mark) : Fixed p (.jump (p.label m))
  | bind (m : Mark) : Fixed p (.bind (p.label m))

/-- The operations of a stub. -/
inductive Uses (p : Plan) : Op → Prop where
  | fixed {op : Op} (h : Fixed p op) : Uses p op
  | grow : Uses p (.increaseFrame p.native.outArgsSize)
  | shrink : Uses p (.decreaseFrame p.native.outArgsSize)
  | marshal : Uses p (.moveArguments p.marshalling.1 p.marshalling.2.1 p.marshalling.2.2)
  | loadMethod {dest : Register} (h : dest = p.abi.method ∨ dest = p.abi.scratch.2.2) :
      Uses p (.load dest p.methodSlot 8)
  | spill {arg : Register × FrameOffset × Nat} (h : arg ∈ inRegisters p.managed) :
      Uses p (.store arg.2.1 arg.1 arg.2.2)
  | reload {arg : Register × FrameOffset × Nat} (h : arg ∈ inRegisters p.managed) :
      Uses p (.load arg.1 arg.2.1 arg.2.2)
  | saveResult (h : p.resultRegister.isSome = true) :
      Uses p (.store p.resultSlot p.resultRegister p.signature.nativeResultSize)
  | restoreResult (h : p.resultRegister.isSome = true) :
      Uses p (.load p.resultRegister p.resultSlot p.signature.nativeResultSize)

/-- A stub names marks only. -/
theorem Uses.labels {op : Op} (h : p.Uses op) {l : Label} (hl : l ∈ op.labels) :
    ∃ m, l = p.label m := by
  cases h with
  | fixed h =>
      cases h with
      | decode =>
          rcases List.mem_cons.mp hl with rfl | hl
          · exact ⟨_, rfl⟩
          · exact ⟨_, List.mem_singleton.mp hl⟩
      | leave | comeBack | poll | pollException | testMarking | testClass | jump | bind =>
          exact ⟨_, List.mem_singleton.mp hl⟩
      | _ => cases hl
  | _ => cases hl

theorem kind_cases (k : NativeKind) : k = .normal ∨ k = .fast ∨ k = .critical := by
  cases k <;> decide

-- ================================================================ parts

/-- Marks that are there on a condition only. -/
def onlyIf (c : Prop) [Decidable c] (ms : List Mark) : List Mark := if c then ms else []

@[simp] theorem onlyIf_nil (c : Prop) [Decidable c] : onlyIf c [] = [] := ite_self []

/-- How many instructions an operation of a stub takes at most. -/
def opCost : Op → Nat
  | .moveArguments dests _ _ => 7 * dests.length
  | _ => 16

/-- A part of a stub: its operations are a stub's, they bind and name these
marks, and they take at most `n` instructions. -/
structure Part (p : Plan) (ops : List Op) (bound named : List Mark) (n : Nat) : Prop where
  uses : ∀ op ∈ ops, p.Uses op
  binds : ops.flatMap Op.binds = bound.map Mark.index
  names : (ops.flatMap fun op => op.labels.map (·.index)) = named.map Mark.index
  cost : (ops.map opCost).sum ≤ n

section Part

variable {ops ops' : List Op} {bound bound' named named' : List Mark} {n n' : Nat}

theorem part_nil : Part p [] [] [] 0 := ⟨fun _ h => absurd h (by simp), rfl, rfl, Nat.le_refl 0⟩

theorem Part.append (h : Part p ops bound named n) (h' : Part p ops' bound' named' n') :
    Part p (ops ++ ops') (bound ++ bound') (named ++ named') (n + n') where
  uses op hop := (List.mem_append.mp hop).elim (h.uses op) (h'.uses op)
  binds := by rw [List.flatMap_append, h.binds, h'.binds, List.map_append]
  names := by rw [List.flatMap_append, h.names, h'.names, List.map_append]
  cost := by
    rw [List.map_append, List.sum_append]
    exact Nat.add_le_add h.cost h'.cost

/-- An operation that names no label, before others. -/
theorem Part.silent {op : Op} (h : Part p ops bound named n) (hop : p.Uses op)
    (hl : op.labels = []) : Part p (op :: ops) bound named (n + opCost op) where
  uses o ho := by
    rcases List.mem_cons.mp ho with rfl | ho
    · exact hop
    · exact h.uses o ho
  binds := by
    rw [List.flatMap_cons, h.binds]
    cases op with
    | bind label => cases hl
    | _ => rfl
  names := by
    rw [List.flatMap_cons, hl, h.names]
    rfl
  cost := by
    rw [List.map_cons, List.sum_cons, Nat.add_comm]
    exact Nat.add_le_add_right h.cost _

/-- An operation that names a mark. -/
theorem Part.names_mark {op : Op} {m : Mark} (h : Part p ops bound named n) (hop : p.Uses op)
    (hl : op.labels = [p.label m]) (hb : op.binds = []) :
    Part p (op :: ops) bound (m :: named) (n + opCost op) where
  uses o ho := by
    rcases List.mem_cons.mp ho with rfl | ho
    · exact hop
    · exact h.uses o ho
  binds := by rw [List.flatMap_cons, hb, h.binds, List.nil_append]
  names := by
    rw [List.flatMap_cons, hl, h.names]
    rfl
  cost := by
    rw [List.map_cons, List.sum_cons, Nat.add_comm]
    exact Nat.add_le_add_right h.cost _

theorem Part.bind {m : Mark} (h : Part p ops bound named n) :
    Part p (.bind (p.label m) :: ops) (m :: bound) (m :: named) (n + 16) where
  uses o ho := by
    rcases List.mem_cons.mp ho with rfl | ho
    · exact .fixed (.bind m)
    · exact h.uses o ho
  binds := by
    rw [List.flatMap_cons, h.binds]
    rfl
  names := by
    rw [List.flatMap_cons, h.names]
    rfl
  cost := by
    rw [List.map_cons, List.sum_cons, Nat.add_comm]
    exact Nat.add_le_add_right h.cost _

/-- A part that is there on a condition only. -/
theorem Part.when {c : Prop} [Decidable c] (h : c → Part p ops bound named n) :
    Part p (if c then ops else []) (onlyIf c bound) (onlyIf c named) n := by
  unfold onlyIf
  split
  · next hc => exact h hc
  · exact ⟨part_nil.uses, rfl, rfl, Nat.zero_le n⟩

theorem Part.unless {c : Prop} [Decidable c] (h : ¬c → Part p ops bound named n) :
    Part p (if c then [] else ops) (onlyIf (¬c) bound) (onlyIf (¬c) named) n := by
  unfold onlyIf
  split
  · exact ⟨part_nil.uses, rfl, rfl, Nat.zero_le n⟩
  · next hc => exact h hc

end Part

theorem Part.most {ops : List Op} {bound named : List Mark} {m n : Nat}
    (h : Part p ops bound named m) (hle : m ≤ n) : Part p ops bound named n :=
  ⟨h.uses, h.binds, h.names, Nat.le_trans h.cost hle⟩

/-- The same operation for each of a list, one that names no label. -/
theorem part_map {α : Type} {f : α → Op} (as : List α)
    (h : ∀ a ∈ as, p.Uses (f a) ∧ (f a).labels = [] ∧ opCost (f a) = 16) :
    Part p (as.map f) [] [] (16 * as.length) := by
  induction as with
  | nil => exact part_nil
  | cons a as ih =>
      obtain ⟨huses, hlabels, hcost⟩ := h a (List.mem_cons_self ..)
      have hrest := ih fun b hb => h b (List.mem_cons_of_mem a hb)
      refine (hrest.silent huses hlabels).most ?_
      rw [hcost, List.length_cons]
      omega

theorem Part.same {ops : List Op} {bound bound' named named' : List Mark} {n : Nat}
    (h : Part p ops bound named n) (hbound : bound = bound') (hnamed : named = named') :
    Part p ops bound' named' n :=
  hbound ▸ hnamed ▸ h

-- ------------------------------------------------ saving across calls

/-- How many arguments come in registers. -/
def held (p : Plan) : Nat := (inRegisters p.managed).length

theorem part_spill : Part p p.spillManaged [] [] (16 * p.held) :=
  part_map _ fun _ harg => ⟨.spill harg, rfl, rfl⟩

theorem part_reload : Part p p.reloadManaged [] [] (16 * p.held + 16) :=
  (part_map _ fun _ harg => ⟨.reload harg, rfl, rfl⟩).append
    (part_nil.silent (.loadMethod (.inl rfl)) rfl)

theorem part_save : Part p p.saveResult [] [] 16 := by
  unfold saveResult
  split
  · next h => exact part_nil.silent (.saveResult h) rfl
  · exact part_nil.most (Nat.zero_le 16)

theorem part_restore : Part p p.restoreResult [] [] 16 := by
  unfold restoreResult
  split
  · next h => exact part_nil.silent (.restoreResult h) rfl
  · exact part_nil.most (Nat.zero_le 16)

theorem part_call (e : Entrypoint) : Part p [p.entrypoint e] [] [] 16 :=
  part_nil.silent (.fixed (.callRuntime e)) rfl

theorem part_jump (m : Mark) : Part p [.jump (p.label m)] [] [m] 16 :=
  part_nil.names_mark (.fixed (.jump m)) rfl rfl

-- ------------------------------------------------------- the fast path

/-- The environment is passed in the first native register, if at all. -/
def EnvInRegister (p : Plan) : Prop :=
  ∀ l, p.native.env = some l → l = .register (p.abi.sized p.abi.firstNative 8) 8

theorem part_env (henv : p.EnvInRegister) : Part p p.loadEnv [] [] 16 := by
  unfold loadEnv
  cases hl : p.native.env with
  | none => exact part_nil.most (Nat.zero_le 16)
  | some l =>
      rw [henv l hl]
      exact part_nil.silent (.fixed .env) rfl

theorem part_callNative : Part p p.callNative [] [] 32 := by
  unfold callNative
  split
  · exact (part_nil.silent (.fixed (.callMethod (.inl rfl))) rfl).most (Nat.le_add_left 16 16)
  · exact (part_nil.silent (.fixed (.callMethod (.inr rfl))) rfl).silent
      (.loadMethod (.inr rfl)) rfl

theorem part_extend : Part p p.extendResult [] [] 16 := by
  unfold extendResult
  split
  · next h => exact part_nil.silent (.fixed (.signExtend 1 (.inl ⟨h, rfl⟩))) rfl
  · next h => exact part_nil.silent (.fixed (.signExtend 2 (.inr ⟨h, rfl⟩))) rfl
  · next h => exact part_nil.silent (.fixed (.zeroExtend 1 (.inl ⟨h, rfl⟩))) rfl
  · next h => exact part_nil.silent (.fixed (.zeroExtend 2 (.inr ⟨h, rfl⟩))) rfl
  · exact part_nil.most (Nat.zero_le 16)

theorem part_entry (henv : p.EnvInRegister) : Part p p.entry
    (onlyIf p.hasClass [.classResume]
      ++ onlyIf (p.options.kind = .normal) [.startResume])
    (onlyIf p.hasClass [.classSlow, .classResume]
      ++ onlyIf (p.options.kind = .normal) [.startSlow, .startResume])
    (7 * p.marshalling.1.length + 128) := by
  have hmethod : (if p.isCritical = true then Register.none else p.abi.method) = .none
      ∨ (if p.isCritical = true then Register.none else p.abi.method) = p.abi.method := by
    split
    · exact .inl rfl
    · exact .inr rfl
  have hbuild : Part p [.buildFrame p.abi.frameSize
      (if p.isCritical = true then Register.none else p.abi.method) p.abi.calleeSaves] [] [] 16 :=
    part_nil.silent (.fixed (.build hmethod)) rfl
  have hpublish : Part p (if p.isCritical = true then []
      else [.storeStackPointer (p.slot .topOfManagedStack) p.options.tagSp]) [] [] 16 := by
    split
    · exact part_nil.most (Nat.zero_le 16)
    · exact part_nil.silent (.fixed .publish) rfl
  have hgrow : Part p [.increaseFrame p.native.outArgsSize] [] [] 16 := part_nil.silent .grow rfl
  have hclass : Part p (if p.hasClass then
      [.testMarking (p.label .classSlow) .notZero, .bind (p.label .classResume)] else []) _ _ 32 :=
    Part.when fun _ => part_nil.bind.names_mark (.fixed .testMarking) rfl rfl
  have hleave : Part p (if p.options.kind = .normal then
      [.runnableToNative (p.label .startSlow) p.scratchList, .bind (p.label .startResume)]
      else []) _ _ 32 :=
    Part.when fun _ => part_nil.bind.names_mark (.fixed .leave) rfl rfl
  have hmarshal : Part p
      [.moveArguments p.marshalling.1 p.marshalling.2.1 p.marshalling.2.2] [] []
      (7 * p.marshalling.1.length) :=
    (part_nil.silent .marshal rfl).most (Nat.le_of_eq (Nat.zero_add _))
  have hall := (((((hbuild.append hpublish).append hgrow).append hclass).append hleave).append
    hmarshal).append (part_env henv)
  exact (hall.same (by simp) (by simp)).most (by omega)

theorem part_exit : Part p p.exit
    (onlyIf (p.options.kind = .normal) [.endResume]
      ++ onlyIf (p.signature.result = some .reference) [.decodeResume]
      ++ onlyIf (p.options.kind = .fast) [.suspendResume])
    (onlyIf (p.options.kind = .normal) [.endSlow, .endResume]
      ++ onlyIf (p.signature.result = some .reference) [.decodeSlow, .decodeResume, .decodeResume]
      ++ onlyIf (p.options.kind = .fast) [.suspendSlow, .suspendResume]
      ++ onlyIf (¬p.isCritical = true) [.exceptionSlow]) 160 := by
  have hcomeBack : Part p (if p.options.kind = .normal then
      [.nativeToRunnable (p.label .endSlow) p.scratchList p.resultRegister,
        .bind (p.label .endResume)] else []) _ _ 32 :=
    Part.when fun _ => part_nil.bind.names_mark (.fixed .comeBack) rfl rfl
  have hdecode : Part p (if p.signature.result = some .reference then
      [.decodeReference p.resultRegister (p.label .decodeSlow) (p.label .decodeResume),
        .bind (p.label .decodeResume)] else [])
      (onlyIf (p.signature.result = some .reference) [.decodeResume])
      (onlyIf (p.signature.result = some .reference) [.decodeSlow, .decodeResume, .decodeResume])
      32 := by
    refine Part.when fun h => ⟨fun op hop => ?_, rfl, rfl, Nat.le_refl 32⟩
    rcases List.mem_cons.mp hop with rfl | hop
    · exact .fixed (.decode h)
    · rw [List.mem_singleton.mp hop]
      exact .fixed (.bind _)
  have hpoll : Part p (if p.options.kind = .fast then
      [.suspendCheck (p.label .suspendSlow), .bind (p.label .suspendResume)] else []) _ _ 32 :=
    Part.when fun _ => part_nil.bind.names_mark (.fixed .poll) rfl rfl
  have hshrink : Part p [.decreaseFrame p.native.outArgsSize] [] [] 16 :=
    part_nil.silent .shrink rfl
  have hexception : Part p (if p.isCritical = true then []
      else [.exceptionPoll (p.label .exceptionSlow)]) _ _ 16 :=
    Part.unless fun _ => part_nil.names_mark (.fixed .pollException) rfl rfl
  have hremove : Part p
      [.removeFrame p.abi.frameSize p.abi.calleeSaves (¬p.isCritical = true)] [] [] 16 :=
    part_nil.silent (.fixed (.remove _)) rfl
  have hall := (((((part_extend.append hcomeBack).append hdecode).append hpoll).append
    hshrink).append hexception).append hremove
  exact hall.same (by simp) (by simp)

-- ------------------------------------------------------ the slow paths

theorem part_classBarrier :
    Part p (p.classBarrier p.root) [.classSlow] [.classSlow, .classResume, .classResume]
      (32 * p.held + 112) := by
  have htest : Part p [.bind (p.label .classSlow), .load p.abi.scratch.2.2 p.methodSlot 8,
      .loadRoot p.root p.abi.scratch.2.2 MethodRecord.declaringClassOffset,
      .testMarkBit p.abi.scratch.2.2 (p.label .classResume) .notZero] [.classSlow]
      [.classSlow, .classResume] 64 :=
    (((part_nil.names_mark (.fixed .testClass) rfl rfl).silent (.fixed .loadClass) rfl).silent
      (.loadMethod (.inr rfl)) rfl).bind
  exact ((((htest.append part_spill).append (part_call _)).append part_reload).append
    (part_jump _)).most (by omega)

theorem part_methodStart :
    Part p p.methodStart [.startSlow] [.startSlow, .startResume] (32 * p.held + 64) :=
  ((((part_nil.bind.append part_spill).append (part_call _)).append part_reload).append
    (part_jump _)).most (by omega)

theorem part_methodEnd : Part p p.methodEnd [.endSlow] [.endSlow, .endResume] 80 :=
  (((part_nil.bind.append part_save).append (part_call _)).append part_restore).append (part_jump _)

theorem part_decode (h : p.signature.result = some .reference) :
    Part p p.decodeGlobal [.decodeSlow] [.decodeSlow, .decodeResume] 64 :=
  (((part_jump _).silent (.fixed (.callRuntime _)) rfl).silent (.fixed (.moveResult h)) rfl).bind

theorem part_suspend : Part p p.suspend [.suspendSlow] [.suspendSlow, .suspendResume] 80 :=
  (((part_nil.bind.append part_save).append (part_call _)).append part_restore).append (part_jump _)

theorem part_exception : Part p p.exception [.exceptionSlow] [.exceptionSlow] 32 :=
  (part_nil.silent (.fixed .deliver) rfl).bind

theorem part_slowPaths : Part p (p.slowPaths p.root)
    (onlyIf p.hasClass [.classSlow]
      ++ onlyIf (p.options.kind = .normal) [.startSlow, .endSlow]
      ++ onlyIf (p.signature.result = some .reference) [.decodeSlow]
      ++ onlyIf (p.options.kind = .fast) [.suspendSlow]
      ++ onlyIf (¬p.isCritical = true) [.exceptionSlow])
    (onlyIf p.hasClass [.classSlow, .classResume, .classResume]
      ++ onlyIf (p.options.kind = .normal) [.startSlow, .startResume, .endSlow, .endResume]
      ++ onlyIf (p.signature.result = some .reference) [.decodeSlow, .decodeResume]
      ++ onlyIf (p.options.kind = .fast) [.suspendSlow, .suspendResume]
      ++ onlyIf (¬p.isCritical = true) [.exceptionSlow]) (64 * p.held + 432) := by
  have hnormal : Part p (p.methodStart ++ p.methodEnd) [.startSlow, .endSlow]
      [.startSlow, .startResume, .endSlow, .endResume] _ := part_methodStart.append part_methodEnd
  have hclass : Part p (if p.hasClass then p.classBarrier p.root else []) _ _ _ :=
    Part.when fun _ => part_classBarrier
  have hdecode :
      Part p (if p.signature.result = some .reference then p.decodeGlobal else []) _ _ _ :=
    Part.when part_decode
  have hstay :
      Part p (if p.options.kind = .normal then p.methodStart ++ p.methodEnd else []) _ _ _ :=
    Part.when fun _ => hnormal
  have hpoll : Part p (if p.options.kind = .fast then p.suspend else []) _ _ _ :=
    Part.when fun _ => part_suspend
  have hexception : Part p (if p.isCritical = true then [] else p.exception) _ _ _ :=
    Part.unless fun _ => part_exception
  have hall := (((hclass.append hstay).append hdecode).append hpoll).append hexception
  exact hall.most (by omega)

/-- The whole stub: it binds every mark it names, and none twice. -/
theorem part_ops (henv : p.EnvInRegister) : ∃ bound named,
    Part p p.ops bound named (7 * p.marshalling.1.length + 64 * p.held + 752)
      ∧ bound.Nodup ∧ ∀ m ∈ named, m ∈ bound := by
  refine ⟨_, _, (((part_entry henv).append part_callNative).append part_exit).append part_slowPaths
    |>.most (by omega), ?_, ?_⟩
  · by_cases hclass : p.hasClass <;> by_cases href : p.signature.result = some .reference <;>
      obtain hk | hk | hk := kind_cases p.options.kind <;>
      simp [onlyIf, hclass, href, hk, isCritical]
  · by_cases hclass : p.hasClass <;> by_cases href : p.signature.result = some .reference <;>
      obtain hk | hk | hk := kind_cases p.options.kind <;>
      simp [onlyIf, hclass, href, hk, isCritical]

-- ================================================================ frame

/-- Up to the native call a stub builds its frame and makes room for the
outgoing arguments. -/
theorem frame_called (p : Plan) : (p.entry ++ p.callNative).filter Assembler.adjustsFrame
    = [.buildFrame p.abi.frameSize (if p.isCritical = true then .none else p.abi.method)
        p.abi.calleeSaves,
      .increaseFrame p.native.outArgsSize] := by
  have henv : p.loadEnv.filter Assembler.adjustsFrame = [] := by unfold loadEnv; split <;> rfl
  have hcall : p.callNative.filter Assembler.adjustsFrame = [] := by unfold callNative; split <;> rfl
  simp [entry, List.filter_cons, apply_ite (List.filter Assembler.adjustsFrame), henv, hcall,
    Assembler.adjustsFrame]

/-- Then it gives the room back and removes the frame. -/
theorem frame_exit (p : Plan) : p.exit.filter Assembler.adjustsFrame
    = [.decreaseFrame p.native.outArgsSize,
      .removeFrame p.abi.frameSize p.abi.calleeSaves (¬p.isCritical = true)] := by
  have hextend : p.extendResult.filter Assembler.adjustsFrame = [] := by
    unfold extendResult
    split <;> rfl
  simp [exit, List.filter_cons, apply_ite (List.filter Assembler.adjustsFrame), hextend,
    Assembler.adjustsFrame]

/-- The slow paths leave the frame alone. -/
theorem frame_slowPaths (p : Plan) (root : Register) :
    (p.slowPaths root).filter Assembler.adjustsFrame = [] := by
  have hspill : p.spillManaged.filter Assembler.adjustsFrame = [] := by
    refine List.filter_eq_nil_iff.mpr fun op hop => ?_
    obtain ⟨arg, -, rfl⟩ := List.mem_map.mp hop
    exact Bool.false_ne_true
  have hreload : p.reloadManaged.filter Assembler.adjustsFrame = [] := by
    refine List.filter_eq_nil_iff.mpr fun op hop => ?_
    rcases List.mem_append.mp hop with hop | hop
    · obtain ⟨arg, -, rfl⟩ := List.mem_map.mp hop
      exact Bool.false_ne_true
    · rw [List.mem_singleton.mp hop]
      exact Bool.false_ne_true
  have hsave : p.saveResult.filter Assembler.adjustsFrame = [] := by
    unfold saveResult
    split <;> rfl
  have hrestore : p.restoreResult.filter Assembler.adjustsFrame = [] := by
    unfold restoreResult
    split <;> rfl
  simp [slowPaths, classBarrier, methodStart, methodEnd, decodeGlobal, suspend, exception,
    apply_ite (List.filter Assembler.adjustsFrame), hspill, hreload, hsave, hrestore, entrypoint,
    Assembler.adjustsFrame]

section count

variable {t : Target} (hword : p.abi.frameSize + p.native.outArgsSize < wordLimit)
  (hbuild : Assembler.cfaAfter t 0 (.buildFrame p.abi.frameSize
    (if p.isCritical = true then .none else p.abi.method) p.abi.calleeSaves) = .ok p.abi.frameSize)

include hword hbuild

/-- When native code is called, the frame and the outgoing arguments have
been counted, and nothing else. -/
theorem cfa_called : (p.entry ++ p.callNative).foldlM (Assembler.cfaAfter t) 0
    = .ok (p.abi.frameSize + p.native.outArgsSize) := by
  have hgrow : Assembler.cfaAfter t p.abi.frameSize (.increaseFrame p.native.outArgsSize)
      = .ok (p.abi.frameSize + p.native.outArgsSize) := by
    cases t <;> exact if_pos hword
  rw [Assembler.cfa_filter, frame_called]
  simp only [List.foldlM_cons, hbuild, hgrow, bind, Except.bind]
  rfl

/-- So the frame's size is known all along. -/
theorem cfa_ops : p.ops.foldlM (Assembler.cfaAfter t) 0 = .ok p.abi.frameSize := by
  have hshrink : Assembler.cfaAfter t (p.abi.frameSize + p.native.outArgsSize)
      (.decreaseFrame p.native.outArgsSize) = .ok p.abi.frameSize := by
    have hsub : subWord (p.abi.frameSize + p.native.outArgsSize) p.native.outArgsSize
        = .ok p.abi.frameSize := by
      rw [subWord, if_pos (Nat.le_add_left _ _), Nat.add_sub_cancel]
    cases t <;> exact hsub
  have hremove : ∀ maySuspend, Assembler.cfaAfter t p.abi.frameSize
      (.removeFrame p.abi.frameSize p.abi.calleeSaves maySuspend) = .ok p.abi.frameSize := by
    cases t <;> exact fun _ => rfl
  rw [ops, List.foldlM_append, List.foldlM_append, cfa_called hword hbuild]
  show (p.exit.foldlM (Assembler.cfaAfter t) (p.abi.frameSize + p.native.outArgsSize) >>= _) = _
  rw [Assembler.cfa_filter, frame_exit]
  simp only [List.foldlM_cons, hshrink, hremove, bind, Except.bind, List.foldlM_nil]
  show (p.slowPaths p.root).foldlM (Assembler.cfaAfter t) p.abi.frameSize = _
  rw [Assembler.cfa_filter, frame_slowPaths]
  rfl

end count

end Crossing.Stub.Plan
