import Crossing.A64.Instr
import Crossing.Argument.Move
import Crossing.Glue.Op
import Crossing.Layout.ThreadBlock

/-
Glue operations as ARM64 instructions. X19 holds the thread and X20 mirrors
its marking flag for managed code; X16 and X17 are free for the glue code's
own use.
-/
namespace Crossing.Glue.A64

open Crossing.A64

abbrev Code := Emission Instr

/-- An offset as the 32 bits an instruction's immediate is made from. -/
def imm32 (offset : Nat) : Except Violation Nat :=
  if offset < 2 ^ 32 then .ok offset else .error .immediateTooWide

/-- An offset as the scaled immediate of a load or store. -/
def scaled (scale offset : Nat) : Except Violation (Scaled scale) := do
  Scaled.ofOffset scale (← imm32 offset)

/-- The immediate of a thread slot, which always fits. -/
def slotImm (slot : ThreadSlot) : Scaled 8 :=
  ⟨Fin.ofNat 4096 ((ThreadBlock.offset .eight slot).value / 8)⟩

def markingImm : Scaled 4 := ⟨Fin.ofNat 4096 (ThreadBlock.markingOffset.value / 4)⟩

/-- The state word that a thread in native code has. -/
def nativeWord : UInt32 := ThreadState.native.word

-- =================================================== stores and loads

/-- Stores a register. No register holds no bytes. -/
def storeTo (base : Reg) (offset : Nat) (src : Register) (size : Nat) :
    Except Violation (List Instr) := do
  let view ← src.a64View
  let offset ← imm32 offset
  match view with
  | .none => if size = 0 then return [] else throw (.storeFromNone size)
  | .x rt | .w rt =>
      match size with
      | 1 => return [.strB rt base (← Scaled.ofOffset 1 offset)]
      | 2 => return [.strH rt base (← Scaled.ofOffset 2 offset)]
      | 4 => return [.strW rt base (← Scaled.ofOffset 4 offset)]
      | 8 => return [.strX rt base (← Scaled.ofOffset 8 offset)]
      | _ => throw (.storeSize size .core)
  | .d n | .s n =>
      match size with
      | 4 => return [.strS ⟨UInt8.ofNat n⟩ base (← Scaled.ofOffset 4 offset)]
      | 8 => return [.strD ⟨UInt8.ofNat n⟩ base (← Scaled.ofOffset 8 offset)]
      | _ => throw (.storeSize size .fp)

/-- Loads a register. -/
def loadFrom (dest : Register) (base : Reg) (offset : Nat) (size : Nat) :
    Except Violation (List Instr) := do
  let view ← dest.a64View
  let offset ← imm32 offset
  match view with
  | .none => if size = 0 then return [] else throw (.loadIntoNone size)
  | .x rt | .w rt =>
      match size with
      | 1 => return [.ldrB rt base (← Scaled.ofOffset 1 offset)]
      | 2 => return [.ldrH rt base (← Scaled.ofOffset 2 offset)]
      | 4 => return [.ldrW rt base (← Scaled.ofOffset 4 offset)]
      | 8 => return [.ldrX rt base (← Scaled.ofOffset 8 offset)]
      | _ => throw (.loadSize size .core)
  | .d n | .s n =>
      match size with
      | 4 => return [.ldrS ⟨UInt8.ofNat n⟩ base (← Scaled.ofOffset 4 offset)]
      | 8 => return [.ldrD ⟨UInt8.ofNat n⟩ base (← Scaled.ofOffset 8 offset)]
      | _ => throw (.loadSize size .fp)

-- ============================================================== moves

def moveRegister (dest src : Register) (size : Nat) : Except Violation (List Instr) := do
  match ← dest.a64View, ← src.a64View with
  | .x d, .x s | .x d, .w s | .w d, .x s | .w d, .w s =>
      if d = s then return []
      else if size = 8 then return [Instr.move d s]
      else return [.moveW d s]
  | .d d, .d s | .d d, .s s | .s d, .d s | .s d, .s s =>
      if d = s then return []
      else if size = 8 then return [.fmovD ⟨UInt8.ofNat d⟩ ⟨UInt8.ofNat s⟩]
      else return [.fmovS ⟨UInt8.ofNat d⟩ ⟨UInt8.ofNat s⟩]
  | _, _ => throw (.moveBetween src dest)

def copySlot (dest src : FrameOffset) (size : Nat) : Except Violation (List Instr) := do
  let dest ← imm32 dest.value
  let src ← imm32 src.value
  match size with
  | 4 => return [.ldrW .ip0 .sp (← Scaled.ofOffset 4 src), .strW .ip0 .sp (← Scaled.ofOffset 4 dest)]
  | 8 => return [.ldrX .ip0 .sp (← Scaled.ofOffset 8 src), .strX .ip0 .sp (← Scaled.ofOffset 8 dest)]
  | _ => throw (.copySize size)

/-- Puts the address of a reference's slot into a register, or null when
the reference is null and may be. Only the low 32 bits of a reference
count. -/
def handleInRegister (dest : Register) (slot : FrameOffset) (held : Option Register)
    (nullAllowed : Bool) (next : Nat) : Except Violation Code := do
  let out ← dest.core
  let slot ← imm32 slot.value
  let (setup, input) ← match held with
    | none => do pure ([Instr.ldrW out .sp (← Scaled.ofOffset 4 slot)], out)
    | some r => do pure ([], ← r.core)
  let address := Instr.addImm out .sp (← Imm12.ofNat slot)
  if nullAllowed then
    let test := setup ++ [.cbnz input false next, .movz out 0 0, .b (next + 1)]
    return ⟨test.map .instr ++ [.bind next, .instr address, .bind (next + 1)], next + 2⟩
  else return .ofInstrs next (setup ++ [address])

/-- The same for a stack slot. -/
def handleInFrame (dest slot : FrameOffset) (nullAllowed : Bool) (next : Nat) :
    Except Violation Code := do
  let slot ← imm32 slot.value
  if nullAllowed then
    let test : List Instr := [.ldrW .ip0 .sp (← Scaled.ofOffset 4 slot), .cbz .ip0 false next,
      .addImm .ip0 .sp (← Imm12.ofNat slot)]
    let store := Instr.strX .ip0 .sp (← scaled 8 dest.value)
    return ⟨test.map .instr ++ [.bind next, .instr store], next + 1⟩
  else
    return .ofInstrs next [.addImm .ip0 .sp (← Imm12.ofNat slot),
      .strX .ip0 .sp (← scaled 8 dest.value)]

def argMove (m : ArgMove) (next : Nat) : Except Violation Code := do
  match m with
  | .spillReference reg slot =>
      let rt ← reg.core
      return .ofInstrs next [.strW rt .sp (← scaled 4 slot.value)]
  | .storeToStack dest src size => return .ofInstrs next (← storeTo .sp dest.value src size)
  | .handleToStack dest slot nullAllowed => handleInFrame dest slot nullAllowed next
  | .copyToStack dest src size => return .ofInstrs next (← copySlot dest src size)
  | .moveToRegister dest src size => return .ofInstrs next (← moveRegister dest src size)
  | .handleToRegister dest slot held nullAllowed =>
      handleInRegister dest slot held nullAllowed next
  | .loadToRegister dest src size => return .ofInstrs next (← loadFrom dest .sp src.value size)

-- ============================================================= frames

/-- Saved registers, sorted into the two classes a frame can save. -/
def splitSaves : List Register → Except Violation (List Reg × List VReg)
  | [] => .ok ([], [])
  | r :: rs => do
      match ← r.a64View with
      | .x reg => let (xs, ds) ← splitSaves rs; return (reg :: xs, ds)
      | .d n => let (xs, ds) ← splitSaves rs; return (xs, ⟨UInt8.ofNat n⟩ :: ds)
      | _ => throw (.notCalleeSave r)

/-- Transfers registers in pairs, from `offset` upward; an odd one out is
transferred alone. -/
def inPairs {ρ : Type} (pair : ρ → ρ → Reg → PairOffset → Instr)
    (single : ρ → Reg → Scaled 8 → Instr) (offset : Nat) :
    List ρ → Except Violation (List Instr)
  | [] => .ok []
  | [a] => do return [single a .sp (← scaled 8 offset)]
  | a :: b :: rest => do
      let place ← PairOffset.ofInt (Int32.ofNat offset).toInt
      return pair a b .sp place :: (← inPairs pair single (offset + 16) rest)

/-- Moves the stack pointer down or up. -/
def adjustStack (grow : Bool) (adjust : Nat) : Except Violation (List Instr) := do
  if adjust = 0 then return []
  let imm ← Imm24.ofNat (← imm32 adjust)
  return if grow then Instr.subLarge .sp .sp imm else Instr.addLarge .sp .sp imm

/-- Builds a frame: core registers at its upper end, floating-point ones
below them, the method at its lower end. -/
def buildFrame (size : Nat) (method : Register) (saves : List Register) :
    Except Violation (List Instr) := do
  if size % 16 ≠ 0 then throw (.frameNotAligned size)
  let (cores, fps) ← splitSaves saves
  if cores.length * 8 + fps.length * 8 > size then throw .savesDoNotFit
  let room ← adjustStack true size
  let coreSpills ← inPairs .stp .strX (size - cores.length * 8) cores
  let fpSpills ← inPairs .stpD .strD (size - cores.length * 8 - fps.length * 8) fps
  let publish ← if method.isSome then do pure [Instr.strX (← method.asX) .sp ⟨0⟩] else pure []
  return room ++ coreSpills ++ fpSpills ++ publish

/-- Undoes `buildFrame` and returns. Marking may have started or ended
while the thread was suspended, so its mirror is reloaded. -/
def removeFrame (size : Nat) (saves : List Register) (maySuspend : Bool) :
    Except Violation (List Instr) := do
  if size % 16 ≠ 0 then throw (.frameNotAligned size)
  let (cores, fps) ← splitSaves saves
  let coreBase ← subWord size (cores.length * 8)
  let coreLoads ← inPairs .ldp .ldrX coreBase cores
  let fpBase ← subWord coreBase (fps.length * 8)
  let fpLoads ← inPairs .ldpD .ldrD fpBase fps
  let refresh := if maySuspend then [Instr.ldrW .marking .thread markingImm] else []
  let room ← adjustStack false size
  return coreLoads ++ fpLoads ++ refresh ++ room ++ [.ret]

def adjustFrame (grow : Bool) (adjust : Nat) : Except Violation (List Instr) := do
  if adjust % 16 ≠ 0 then throw (.adjustmentNotAligned adjust)
  adjustStack grow adjust

-- ======================================================= thread state

/-- Exchanges the state word from runnable to native and gives up the
mutator lock. -/
def runnableToNative (lse : Bool) (slow next : Nat) : Code :=
  let release := Instr.strX .zero .thread (slotImm .heldMutatorLock)
  if lse then
    .ofInstrs next (Instr.loadImm32 .ip0 0 ++ Instr.loadImm32 .ip1 nativeWord
      ++ [.casal .ip0 .ip1 .thread, .cbnz .ip0 false slow, release])
  else
    let attempt := [Instr.ldaxr .ip0 .thread] ++ Instr.loadImm32 .ip1 nativeWord
      ++ [.cbnz .ip0 false slow, .stlxr .ip0 .ip1 .thread, .cbnz .ip0 false next, release]
    ⟨.bind next :: attempt.map .instr, next + 1⟩

/-- Exchanges the state word from native to runnable and takes the mutator
lock. -/
def nativeToRunnable (lse : Bool) (slow next : Nat) : Code :=
  let acquire := [Instr.ldrX .ip0 .thread (slotImm .mutatorLock),
    .strX .ip0 .thread (slotImm .heldMutatorLock)]
  if lse then
    .ofInstrs next (Instr.loadImm32 .ip0 nativeWord ++ [.casal .ip0 .zero .thread]
      ++ Instr.loadImm32 .ip1 nativeWord ++ [.cmpW .ip0 .ip1, .bCond .ne slow] ++ acquire)
  else
    let attempt := [Instr.ldaxr .ip0 .thread] ++ Instr.loadImm32 .ip1 nativeWord
      ++ [.cmpW .ip0 .ip1, .bCond .ne slow, .stxr .ip0 .zero .thread, .cbnz .ip0 false next]
      ++ acquire
    ⟨.bind next :: attempt.map .instr, next + 1⟩

/-- The result of native code must not be where the transition works. -/
def checkResult (result : Register) : Except Violation Unit := do
  if result.isSome then
    match ← result.a64View with
    | .x r | .w r => if r = .ip0 ∨ r = .ip1 then throw (.returnOverlapsScratch result)
    | _ => return ()

-- ========================================================= operations

/-- The instructions of one operation; `lse` says whether compare-and-swap
is one instruction. -/
def lower (lse : Bool) (op : Op) (next : Nat) : Except Violation Code := do
  let plain (is : List Instr) : Code := .ofInstrs next is
  match op with
  | .buildFrame size method saves => return plain (← buildFrame size method saves)
  | .removeFrame size saves maySuspend => return plain (← removeFrame size saves maySuspend)
  | .increaseFrame adjust => return plain (← adjustFrame true adjust)
  | .decreaseFrame adjust => return plain (← adjustFrame false adjust)
  | .store offset src size => return plain (← storeTo .sp offset.value src size)
  | .storeToMember base offset src size =>
      return plain (← storeTo (← base.core) offset.value src size)
  | .storePointer offset src =>
      let rt ← src.core
      return plain [.strX rt .sp (← scaled 8 offset.value)]
  | .storeStackPointer offset tag =>
      let mark := if tag then [Instr.orrBit .ip0 .ip0 1] else []
      return plain ([Instr.move .ip0 .sp] ++ mark
        ++ [.strX .ip0 .thread (← scaled 8 offset.value)])
  | .load dest offset size => return plain (← loadFrom dest .sp offset.value size)
  | .loadFromMember dest base offset size =>
      return plain (← loadFrom dest (← base.core) offset.value size)
  | .loadPointerFromThread dest offset =>
      let rt ← dest.core
      return plain [.ldrX rt .thread (← scaled 8 offset.value)]
  | .loadRoot dest base offset =>
      let rt ← dest.core
      let rn ← base.core
      return plain [.ldrW rt rn (← scaled 4 offset.value)]
  | .moveArguments dests sources slots =>
      let moves ← ArgMove.plan .arm64 dests sources slots
      Emission.concat argMove moves next
  | .move dest src size => return plain (← moveRegister dest src size)
  | .loadImmediate dest value => return plain (Instr.loadImm64 (← dest.core) value)
  | .copy dest src size => return plain (← copySlot dest src size)
  | .signExtend reg size =>
      let r ← reg.core
      match size with
      | 1 => return plain [.sxtb r r]
      | 2 => return plain [.sxth r r]
      | _ => throw (.signExtension size)
  | .zeroExtend reg size =>
      let r ← reg.core
      match size with
      | 1 => return plain [.uxtb r r]
      | 2 => return plain [.uxth r r]
      | _ => throw (.zeroExtension size)
  | .currentThread dest => return plain [Instr.move (← dest.core) .thread]
  | .currentThreadToFrame dest => return plain [.strX .thread .sp (← scaled 8 dest.value)]
  | .decodeReference reg slow resume =>
      let r ← reg.core
      return plain [.tstBit r 1, .bCond .ne slow.index, .clearLow r r ⟨2, by decide, by decide⟩,
        .cbz r true resume.index, .ldrW r r ⟨0⟩]
  | .verifyObject _ _ => return plain []
  | .jumpTo base offset =>
      let rn ← base.core
      return plain [.ldrX .ip0 rn (← scaled 8 offset.value), .br .ip0]
  | .call base offset =>
      let rn ← base.core
      return plain [.ldrX .link rn (← scaled 8 offset.value), .blr .link]
  | .callFromThread offset =>
      return plain [.ldrX .link .thread (← scaled 8 offset.value), .blr .link]
  | .runnableToNative slow _ => return runnableToNative lse slow.index next
  | .nativeToRunnable slow _ result =>
      checkResult result
      return nativeToRunnable lse slow.index next
  | .suspendCheck slow =>
      return plain [.ldrW .ip0 .thread ⟨Fin.ofNat 4096 (ThreadBlock.flagsOffset.value / 4)⟩,
        .tstWLow .ip0 ⟨ThreadFlag.suspendOrCheckpointBits, by decide, by decide⟩,
        .bCond .ne slow.index]
  | .exceptionPoll slow =>
      return plain [.ldrX .ip0 .thread (slotImm .exception), .cbnz .ip0 true slow.index]
  | .deliverException =>
      let entry := (ThreadBlock.entrypoint .eight .deliverException).value
      return plain [.ldrX .x0 .thread (slotImm .exception),
        .ldrX .link .thread ⟨Fin.ofNat 4096 (entry / 8)⟩, .blr .link, .brk 0]
  | .jump target => return plain [.b target.index]
  | .testMarking target test =>
      let branch := match test with
        | .zero => Instr.cbz .ip0 false target.index
        | .notZero => Instr.cbnz .ip0 false target.index
      return plain [.ldrW .ip0 .thread markingImm, branch]
  | .testMarkBit reference target test =>
      let base ← reference.core
      let cond := match test with
        | .zero => Cond.eq
        | .notZero => Cond.ne
      return plain [.ldrW .ip0 base ⟨Fin.ofNat 4096 (ObjectHeader.monitorOffset.value / 4)⟩,
        .tstWBit .ip0 ⟨ObjectHeader.markBitShift, by decide⟩, .bCond cond target.index]
  | .testByte address target =>
      return plain (Instr.loadImm64 .ip0 address
        ++ [.ldrB .ip0 .ip0 ⟨0⟩, .cbnz .ip0 false target.index])
  | .bind label => return ⟨[.bind label.index], next⟩

/-- The frame size that debuggers see after an operation: removing a frame
sets it, building and adjusting move it. -/
def cfaAfter (cfa : Nat) : Op → Except Violation Nat
  | .removeFrame size _ _ => .ok size
  | .buildFrame adjust _ _ | .increaseFrame adjust => addWord cfa adjust
  | .decreaseFrame adjust => subWord cfa adjust
  | _ => .ok cfa

/-- The handle of a register that holds `size` bytes. -/
def withSize (src : Register) (size : Nat) : Except Violation Register := do
  match ← src.a64View with
  | .x r | .w r =>
      if size = 8 then return r.xHandle
      else if size ∈ [1, 2, 4] then return r.wHandle
      else throw (.registerSize size)
  | _ => throw (.notOfClass src .core)

end Crossing.Glue.A64
