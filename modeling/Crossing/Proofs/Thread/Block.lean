import Crossing.Proofs.Processor.Basic
import Crossing.Proofs.Thread.Stopped

/-
The control block of a thread as memory, and what leaving managed code and
coming back do to it. `Mirrors` ties a block to the record of its thread;
`left` and `entered` are the two transitions as stores into the block, and
the runtime's transitions, followed step by step, are shown to be these
(`leave_performs`, `enter_performs`). A stub that makes the same stores
inline can then stand in for the runtime.
-/
namespace Crossing

-- ============================================================== blocks

namespace ThreadBlock

/-- Where the state word of a thread is. -/
def wordAt (thread : UInt64) : UInt64 := thread + UInt64.ofNat flagsOffset.value

def markingAt (thread : UInt64) : UInt64 := thread + UInt64.ofNat markingOffset.value

def slotAt (thread : UInt64) (slot : ThreadSlot) : UInt64 :=
  thread + UInt64.ofNat (offset .eight slot).value

/-- Sets the state word and the slot for the lock that is held. -/
def publish (m : Memory) (thread : UInt64) (word : UInt32) (held : UInt64) : Memory :=
  (m.write32 (wordAt thread) word).write64 (slotAt thread .heldMutatorLock) held

/-- The thread is in native code and does not hold the mutator lock. -/
def left (m : Memory) (thread : UInt64) : Memory := publish m thread ThreadState.native.word 0

/-- The thread is in managed code and holds the mutator lock. -/
def entered (m : Memory) (thread : UInt64) : Memory :=
  publish m thread ThreadState.runnable.word (m.read64 (slotAt thread .mutatorLock))

variable {m : Memory} {thread : UInt64} {slot slot' : ThreadSlot}

/-- The block begins with the state word. -/
theorem wordAt_eq (thread : UInt64) : wordAt thread = thread := UInt64.add_zero thread

/-- The slots come after the two words. -/
theorem offset_bounds (slot : ThreadSlot) :
    8 ≤ (offset .eight slot).value ∧ (offset .eight slot).value + 8 ≤ 2 ^ 64 := by
  cases slot <;> decide

theorem offset_apart (h : slot ≠ slot') :
    (offset .eight slot).value + 8 ≤ (offset .eight slot').value
      ∨ (offset .eight slot').value + 8 ≤ (offset .eight slot).value := by
  have hindex : slotIndex slot ≠ slotIndex slot' := by
    intro heq
    cases slot <;> cases slot' <;> first | exact h rfl | cases heq
  simp only [offset, PointerSize.bytes]
  omega

theorem slot_of_word (m : Memory) (thread : UInt64) (v : UInt32) (slot : ThreadSlot) :
    (m.write32 (wordAt thread) v).read64 (slotAt thread slot) = m.read64 (slotAt thread slot) := by
  obtain ⟨hlow, hhigh⟩ := offset_bounds slot
  have hapart : flagsOffset.value + 4 ≤ (offset .eight slot).value := Nat.le_trans (by decide) hlow
  exact congrArg UInt64.ofNat
    (m.read_write_apart thread v.toNat (.inr hapart) hhigh (by decide))

theorem publish_word (word : UInt32) (held : UInt64) :
    (publish m thread word held).read32 (wordAt thread) = word := by
  obtain ⟨hlow, hhigh⟩ := offset_bounds .heldMutatorLock
  have hapart : flagsOffset.value + 4 ≤ (offset .eight .heldMutatorLock).value := by decide
  have hword := (m.write32 (wordAt thread) word).read_write_apart thread held.toNat (.inl hapart)
    (by decide) hhigh
  exact (congrArg UInt32.ofNat hword).trans (Memory.read32_write32 m (wordAt thread) word)

theorem publish_marking (word : UInt32) (held : UInt64) :
    (publish m thread word held).read32 (markingAt thread) = m.read32 (markingAt thread) := by
  obtain ⟨hlow, hhigh⟩ := offset_bounds .heldMutatorLock
  have hapart : markingOffset.value + 4 ≤ (offset .eight .heldMutatorLock).value := by decide
  have hslot := (m.write32 (wordAt thread) word).read_write_apart thread held.toNat (.inl hapart)
    (by decide) hhigh
  have hword : (m.write32 (wordAt thread) word).read (markingAt thread) 4
      = m.read (markingAt thread) 4 :=
    m.read_write_apart thread word.toNat (o := markingOffset.value) (.inr (by decide)) (by decide)
      (by decide)
  exact congrArg UInt32.ofNat (hslot.trans hword)

theorem publish_held (word : UInt32) (held : UInt64) :
    (publish m thread word held).read64 (slotAt thread .heldMutatorLock) = held := by
  rw [publish, Memory.read64_write64]

theorem publish_slot (word : UInt32) (held : UInt64) (h : slot ≠ .heldMutatorLock) :
    (publish m thread word held).read64 (slotAt thread slot) = m.read64 (slotAt thread slot) := by
  have hslot := (m.write32 (wordAt thread) word).read_write_apart thread held.toNat
    (offset_apart h) (offset_bounds slot).2 (offset_bounds .heldMutatorLock).2
  exact (congrArg UInt64.ofNat hslot).trans (slot_of_word m thread word slot)

/-- The lock is the same before and after the word is written. -/
theorem entered_eq (m : Memory) (thread : UInt64) :
    let m' := m.write32 (wordAt thread) ThreadState.runnable.word
    entered m thread
      = m'.write64 (slotAt thread .heldMutatorLock) (m'.read64 (slotAt thread .mutatorLock)) := by
  intro m'
  rw [entered, publish, slot_of_word]

-- ============================================================= mirrors

/-- A block that shows a record. An armed trigger is a null pointer, any
other points to itself. -/
structure Mirrors (m : Memory) (thread : UInt64) (t : ThreadRecord) : Prop where
  word : m.read32 (wordAt thread) = t.word.bits
  marking : m.read32 (markingAt thread) = if t.marking then 1 else 0
  self : m.read64 (slotAt thread .self) = thread
  exception : m.read64 (slotAt thread .exception) = t.exception.toUInt64
  frame : m.read64 (slotAt thread .topOfManagedStack) = UInt64.ofNat t.topFrame
  trigger : m.read64 (slotAt thread .suspendTrigger)
    = if t.triggerArmed then 0 else slotAt thread .suspendTrigger
  held : m.read64 (slotAt thread .heldMutatorLock)
    = if t.heldLock then m.read64 (slotAt thread .mutatorLock) else 0
  stackEnd : m.read64 (slotAt thread .stackEnd) = UInt64.ofNat t.stackEnd

/-- Word and lock are set in the block as they are in the record. -/
theorem Mirrors.publish {t : ThreadRecord} (h : Mirrors m thread t) (word : StateWord)
    (heldLock : Bool) :
    Mirrors (publish m thread word.bits
        (if heldLock then m.read64 (slotAt thread .mutatorLock) else 0)) thread
      { t with word, heldLock } where
  word := publish_word _ _
  marking := (publish_marking _ _).trans h.marking
  self := (publish_slot _ _ (by decide)).trans h.self
  exception := (publish_slot _ _ (by decide)).trans h.exception
  frame := (publish_slot _ _ (by decide)).trans h.frame
  trigger := (publish_slot _ _ (by decide)).trans h.trigger
  held := by rw [publish_held, publish_slot _ _ (by decide)]
  stackEnd := (publish_slot _ _ (by decide)).trans h.stackEnd

theorem Mirrors.left {t : ThreadRecord} (h : Mirrors m thread t) :
    Mirrors (left m thread) thread { t with word := { state := .native }, heldLock := false } :=
  h.publish { state := .native } false

theorem Mirrors.entered {t : ThreadRecord} (h : Mirrors m thread t) :
    Mirrors (entered m thread) thread { t with word := { state := .runnable }, heldLock := true } :=
  h.publish { state := .runnable } true

end ThreadBlock

-- ========================================================= the runtime

/-- A word without requests is told by its bits. -/
theorem StateWord.eq_of_bits {word : StateWord} {s : ThreadState} (h : word.bits = s.word) :
    word = { state := s } := by
  obtain ⟨state, suspend, checkpoint⟩ := word
  cases suspend <;> cases checkpoint <;> cases state <;> cases s <;>
    first | rfl | exact absurd h (by decide)

namespace World

/-- An actor with its record and what it has to do. -/
structure Working (w : World) (a : Nat) (t : ThreadRecord) (agenda : List Task) : Prop where
  record : (w.actors a).record = some t.id
  own : w.records t.id = some t
  agenda : (w.actors a).agenda = agenda

section Working

variable {w w₁ : World} {a : Nat} {t t' : ThreadRecord} {task : Task} {tasks rest : List Task}

theorem Working.own? (h : w.Working a t tasks) : w.own? a = some t := by
  rw [World.own?, h.record]
  exact h.own

/-- A step on the actor's own record. -/
theorem Working.step (h : w.Working a t (task :: rest)) (hperform : w.perform a task = .next tasks w₁)
    (hactors : w₁.actors = w.actors) (hown : w₁.records t'.id = some t') (hid : t'.id = t.id) :
    ∃ w', w.move? (.step a) = some w' ∧ w'.Working a t' (tasks ++ rest) := by
  refine ⟨w₁.setActor a { w₁.actors a with agenda := tasks ++ rest }, ?_, ?_, hown, ?_⟩
  · simp only [move?, step?, h.agenda, hperform]
  · simp [hactors, h.record, hid]
  · simp

/-- Three steps of an actor carry a task out if its thread is in the state
`before` with no request pending. Only the word and the lock of the record
change, and whatever memory mirrors the record before, the change to memory
makes it mirror the record after. -/
def Performs (task : Task) (before after : ThreadState) (heldLock : Bool)
    (change : Memory → UInt64 → Memory) : Prop :=
  ∀ (w : World) (a : Nat) (t : ThreadRecord) (rest : List Task), Reachable w → w.own? a = some t →
    (w.actors a).agenda = task :: rest → t.word.bits = before.word →
    let t' := { t with word := { state := after }, heldLock }
    ∃ w', w.follow [.step a, .step a, .step a] = some w' ∧ w'.own? a = some t'
      ∧ (w'.actors a).agenda = rest
      ∧ ∀ m thread, ThreadBlock.Mirrors m thread t → ThreadBlock.Mirrors (change m thread) thread t'

/-- The word is read, then swapped, then the lock taken or given up. -/
theorem performs_of_steps (swap : StateWord → Task) (lock : Task) {before after : ThreadState}
    {held : Bool} {change : Memory → UInt64 → Memory}
    (hread : ∀ {w : World} {a : Nat} {t : ThreadRecord}, w.own? a = some t →
      t.word = { state := before } → w.perform a task = .next [swap t.word] w)
    (hswap : ∀ {w : World} {a : Nat} {t : ThreadRecord}, w.own? a = some t →
      w.perform a (swap t.word) = .next [lock] (w.setRecord (t.setState after)))
    (hlock : ∀ {w : World} {a : Nat} {t : ThreadRecord}, w.own? a = some t →
      w.perform a lock = .next [] (w.setRecord { t with heldLock := held }))
    (hchange : ∀ {m : Memory} {thread : UInt64} {t : ThreadRecord}, ThreadBlock.Mirrors m thread t →
      ThreadBlock.Mirrors (change m thread) thread
        { t with word := { state := after }, heldLock := held }) :
    Performs task before after held change := by
  intro w a t rest hreach hown hagenda hbits t'
  obtain ⟨hrecord, hrec⟩ := own?_spec hreach.sound.ledger.toNumbered hown
  have hword : t.word = { state := before } := StateWord.eq_of_bits hbits
  have hw : w.Working a t (task :: rest) := ⟨hrecord, hrec, hagenda⟩
  obtain ⟨w₁, hfirst, h₁⟩ := hw.step (hread hown hword) rfl hrec rfl
  obtain ⟨w₂, hsecond, h₂⟩ := h₁.step (hswap h₁.own?) rfl (if_pos rfl) rfl
  obtain ⟨w₃, hthird, h₃⟩ := h₂.step (hlock h₂.own?) rfl (if_pos rfl) rfl
  have hrecord' : { t.setState after with heldLock := held } = t' := by
    simp only [ThreadRecord.setState, hword, t']
  refine ⟨w₃, ?_, hrecord' ▸ h₃.own?, h₃.agenda, fun m thread hm => hchange hm⟩
  simp only [follow, hfirst, hsecond, hthird, Option.bind_some]

theorem leave_performs : Performs .leave .runnable .native false ThreadBlock.left := by
  refine performs_of_steps .leaveSwap .dropLock ?_ ?_ ?_ ThreadBlock.Mirrors.left
  · intro w a t hown hword
    simp [perform, performOwn, hown, ThreadRecord.state, hword, StateWord.isQuiet]
  · intro w a t hown
    simp [perform, performOwn, hown, ThreadRecord.swapState?]
  · intro w a t hown
    simp [perform, performOwn, hown]

theorem enter_performs : Performs .enter .native .runnable true ThreadBlock.entered := by
  refine performs_of_steps .enterSwap .takeLock ?_ ?_ ?_
    ThreadBlock.Mirrors.entered
  · intro w a t hown hword
    simp [perform, performOwn, hown, ThreadRecord.state, hword]
  · intro w a t hown
    simp [perform, performOwn, hown, ThreadRecord.swapState?]
  · intro w a t hown
    simp [perform, performOwn, hown]

end Working

end World

end Crossing
