import Crossing.Argument.Move
import Crossing.Glue.Op
import Crossing.Layout.ThreadBlock
import Crossing.X86.Instr

/-
Glue operations as x86-64 instructions. The thread is addressed through the
`gs` segment. R11 is free for the glue code's own use; the state
transitions also use RAX.
-/
namespace Crossing.Glue.X86

open Crossing.X86

abbrev Code := Emission Instr

/-- Bytes pushed by one push. -/
def wordSize : Nat := 8

/-- A register free for the glue code's own use. -/
def spare : Reg := .r11

/-- The state word that a thread in native code has. -/
def nativeWord : UInt64 := ThreadState.native.word.toUInt64

def threadMem (offset : ThreadOffset) : Except Violation Mem :=
  return .gs (← offset.displacement).toUInt32

def frameMem (offset : FrameOffset) : Except Violation Mem :=
  return .base .rsp (← offset.displacement)

def memberMem {b : OffsetBase} (base : Register) (offset : Offset b) : Except Violation Mem := do
  let base ← base.cpu
  return .base base (← offset.displacement)

/-- The memory of a thread slot, whose offset always fits. -/
def slotMem (slot : ThreadSlot) : Mem := .gs (UInt32.ofNat (ThreadBlock.offset .eight slot).value)

def flagsMem : Mem := .gs (UInt32.ofNat ThreadBlock.flagsOffset.value)

def Test.cond : Test → Cond
  | .zero => .zero
  | .notZero => .notZero

-- =================================================== stores and loads

/-- Stores a register. No register holds no bytes. -/
def storeTo (mem : Mem) (src : Register) (size : Nat) : Except Violation (List Instr) := do
  match ← src.x86View with
  | .none => if size = 0 then return [] else throw (.storeFromNone size)
  | .cpu reg =>
      match size with
      | 1 => return [.store .byte mem reg]
      | 2 => return [.store .word mem reg]
      | 4 => return [.store .long mem reg]
      | 8 => return [.store .quad mem reg]
      | _ => throw (.storeSize size .cpu)
  | .xmm n =>
      match size with
      | 4 => return [.storeScalar .single mem ⟨UInt8.ofNat n⟩]
      | 8 => return [.storeScalar .double mem ⟨UInt8.ofNat n⟩]
      | _ => throw (.storeSize size .xmm)

/-- Loads a register. -/
def loadFrom (dest : Register) (mem : Mem) (size : Nat) : Except Violation (List Instr) := do
  match ← dest.x86View with
  | .none => if size = 0 then return [] else throw (.loadIntoNone size)
  | .cpu reg =>
      match size with
      | 1 => return [.load .byte reg mem]
      | 2 => return [.load .word reg mem]
      | 4 => return [.load .long reg mem]
      | 8 => return [.load .quad reg mem]
      | _ => throw (.loadSize size .cpu)
  | .xmm n =>
      match size with
      | 4 => return [.loadScalar .single ⟨UInt8.ofNat n⟩ mem]
      | 8 => return [.loadScalar .double ⟨UInt8.ofNat n⟩ mem]
      | _ => throw (.loadSize size .xmm)

-- ============================================================== moves

def moveRegister (dest src : Register) (size : Nat) : Except Violation (List Instr) := do
  if dest = src then return []
  match ← dest.x86View, ← src.x86View with
  | .cpu d, .cpu s => if size = 8 then return [.moveQuad d s] else return [.moveLong d s]
  | .xmm d, .xmm s => return [.moveXmm ⟨UInt8.ofNat d⟩ ⟨UInt8.ofNat s⟩]
  | _, _ => throw (.moveBetween src dest)

def copySlot (dest src : FrameOffset) (size : Nat) : Except Violation (List Instr) := do
  match size with
  | 4 => return [.load .long spare (← frameMem src), .store .long (← frameMem dest) spare]
  | 8 => return [.load .quad spare (← frameMem src), .store .quad (← frameMem dest) spare]
  | _ => throw (.copySize size)

/-- Puts the address of a reference's slot into a register, or null when
the reference is null and may be. -/
def handleInRegister (dest : Register) (slot : FrameOffset) (held : Option Register)
    (nullAllowed : Bool) (next : Nat) : Except Violation Code := do
  let out ← dest.cpu
  let (setup, input) ← match held with
    | none => do pure ([Instr.load .long out (← frameMem slot)], out)
    | some r => do pure ([], ← r.cpu)
  let mem ← frameMem slot
  if nullAllowed then
    let clear := if out ≠ input then [Instr.xor out out] else []
    let test := setup ++ clear
      ++ [.testReg input input, .jumpIf .zero next, .lea out mem]
    return ⟨test.map .instr ++ [.bind next], next + 1⟩
  else return .ofInstrs next (setup ++ [.lea out mem])

/-- The same for a stack slot. -/
def handleInFrame (dest slot : FrameOffset) (nullAllowed : Bool) (next : Nat) :
    Except Violation Code := do
  let mem ← frameMem slot
  let out ← frameMem dest
  if nullAllowed then
    let test : List Instr := [.load .long spare mem, .testReg spare spare, .jumpIf .zero next,
      .lea spare mem]
    return ⟨test.map .instr ++ [.bind next, .instr (.store .quad out spare)], next + 1⟩
  else return .ofInstrs next [.lea spare mem, .store .quad out spare]

def argMove (m : ArgMove) (next : Nat) : Except Violation Code := do
  match m with
  | .spillReference reg slot =>
      let mem ← frameMem slot
      return .ofInstrs next [.store .long mem (← reg.cpu)]
  | .storeToStack dest src size => return .ofInstrs next (← storeTo (← frameMem dest) src size)
  | .handleToStack dest slot nullAllowed => handleInFrame dest slot nullAllowed next
  | .copyToStack dest src size => return .ofInstrs next (← copySlot dest src size)
  | .moveToRegister dest src size => return .ofInstrs next (← moveRegister dest src size)
  | .handleToRegister dest slot held nullAllowed =>
      handleInRegister dest slot held nullAllowed next
  | .loadToRegister dest src size => return .ofInstrs next (← loadFrom dest (← frameMem src) size)

-- ============================================================= frames

/-- The general-purpose registers among those to save. -/
def cpuSaves (saves : List Register) : Except Violation (List Reg) := do
  return (← saves.mapM Register.x86View).filterMap fun
    | .cpu reg => some reg
    | _ => none

/-- The SSE registers among those to save. -/
def xmmSaves (saves : List Register) : Except Violation (List Xmm) := do
  return (← saves.mapM Register.x86View).filterMap fun
    | .xmm n => some ⟨UInt8.ofNat n⟩
    | _ => none

/-- Bytes of a frame below the pushed registers and the return address. -/
def restOfFrame (size pushes : Nat) : Except Violation Nat := do
  subWord (← subWord size (pushes * wordSize)) wordSize

/-- Stores of SSE registers one below the other, starting below `top`. -/
def spillXmms : Nat → List Xmm → Except Violation (List Instr)
  | _, [] => .ok []
  | top, x :: xs => do
      let offset ← subWord top 8
      return .storeScalar .double (.base .rsp (Int32.ofNat offset)) x :: (← spillXmms offset xs)

/-- Loads of SSE registers one above the other, starting at `offset`. -/
def unspillXmms : Nat → List Xmm → List Instr
  | _, [] => []
  | offset, x :: xs =>
      .loadScalar .double x (.base .rsp (Int32.ofNat offset)) :: unspillXmms (offset + 8) xs

/-- Builds a frame: pushes in reverse order, then room for the rest, the
SSE registers at its upper end, and the method at its lower end. -/
def buildFrame (size : Nat) (method : Register) (saves : List Register) :
    Except Violation (List Instr) := do
  if size % 16 ≠ 0 then throw (.frameNotAligned size)
  let cpus ← cpuSaves saves.reverse
  let xmms ← xmmSaves saves.reverse
  let rest ← restOfFrame size cpus.length
  let room := if rest = 0 then [] else [Instr.arith .sub .rsp (Int32.ofNat rest)]
  let spills ← spillXmms rest xmms
  let publish ← if method.isSome then
      do pure [Instr.store .quad (.base .rsp 0) (← method.cpu)]
    else pure []
  return cpus.map .push ++ room ++ spills ++ publish

/-- Undoes `buildFrame` and returns. -/
def removeFrame (size : Nat) (saves : List Register) : Except Violation (List Instr) := do
  if size % 16 ≠ 0 then throw (.frameNotAligned size)
  let low ← restOfFrame size saves.length
  let xmms ← xmmSaves saves
  let cpus ← cpuSaves saves
  let rest ← restOfFrame size cpus.length
  let room := if rest = 0 then [] else [Instr.arith .add .rsp (Int32.ofNat rest)]
  return unspillXmms low xmms ++ room ++ cpus.map .pop ++ [.ret]

def adjustFrame (op : Arith) (adjust : Nat) : Except Violation (List Instr) := do
  if adjust % 16 ≠ 0 then throw (.adjustmentNotAligned adjust)
  return if adjust = 0 then [] else [.arith op .rsp (Int32.ofNat adjust)]

-- ======================================================= thread state

/-- Exchanges the state word from runnable to native and gives up the
mutator lock. -/
def runnableToNative (slow : Nat) : List Instr :=
  [.xor .rax .rax, .loadImm spare nativeWord, .lockCompareExchange flagsMem spare,
    .jumpIf .notZero slow, .storeImm (slotMem .heldMutatorLock) 0]

/-- Exchanges the state word from native to runnable and takes the mutator
lock. A result in RAX is kept in the second scratch register meanwhile. -/
def nativeToRunnable (slow : Nat) (scratch : List Register) (result : Register) :
    Except Violation (List Instr) := do
  match scratch with
  | first :: second :: _ =>
      let free ← first.cpu
      let saved ← second.cpu
      if free = .rax ∨ saved = .rax then throw .scratchIsRax
      let keep ← if result.isSome then
          do let _ ← result.x86View; pure (result.x86Overlaps Reg.rax.handle)
        else pure false
      let before := if keep then [Instr.moveQuad saved .rax] else []
      let after := if keep then [Instr.moveQuad .rax saved] else []
      return before
        ++ [.loadImm .rax nativeWord, .xor free free, .lockCompareExchange flagsMem free] ++ after
        ++ [.jumpIf .notZero slow, .load .quad free (slotMem .mutatorLock),
          .store .quad (slotMem .heldMutatorLock) free]
  | _ => throw .needsTwoScratch

-- ========================================================= operations

/-- The instructions of one operation. -/
def lower (op : Op) (next : Nat) : Except Violation Code := do
  let plain (is : List Instr) : Code := .ofInstrs next is
  match op with
  | .buildFrame size method saves => return plain (← buildFrame size method saves)
  | .removeFrame size saves _ => return plain (← removeFrame size saves)
  | .increaseFrame adjust => return plain (← adjustFrame .sub adjust)
  | .decreaseFrame adjust => return plain (← adjustFrame .add adjust)
  | .store offset src size => return plain (← storeTo (← frameMem offset) src size)
  | .storeToMember base offset src size =>
      return plain (← storeTo (← memberMem base offset) src size)
  | .storePointer offset src =>
      let mem ← frameMem offset
      return plain [.store .quad mem (← src.cpu)]
  | .storeStackPointer offset tag =>
      let mem ← threadMem offset
      if tag then
        return plain [.moveQuad spare .rsp, .arith .or spare 2, .store .quad mem spare]
      else return plain [.store .quad mem .rsp]
  | .load dest offset size => return plain (← loadFrom dest (← frameMem offset) size)
  | .loadFromMember dest base offset size =>
      return plain (← loadFrom dest (← memberMem base offset) size)
  | .loadPointerFromThread dest offset =>
      let reg ← dest.cpu
      return plain [.load .quad reg (← threadMem offset)]
  | .loadRoot dest base offset =>
      let reg ← dest.cpu
      return plain [.load .long reg (← memberMem base offset)]
  | .moveArguments dests sources slots =>
      let moves ← ArgMove.plan .x86 dests sources slots
      Emission.concat argMove moves next
  | .move dest src size => return plain (← moveRegister dest src size)
  | .loadImmediate dest value => return plain [.loadImm (← dest.cpu) value]
  | .copy dest src size => return plain (← copySlot dest src size)
  | .signExtend reg size =>
      let r ← reg.cpu
      match size with
      | 1 => return plain [.signExtendByte r r]
      | 2 => return plain [.signExtendWord r r]
      | _ => throw (.signExtension size)
  | .zeroExtend reg size =>
      let r ← reg.cpu
      match size with
      | 1 => return plain [.zeroExtendByte r r]
      | 2 => return plain [.zeroExtendWord r r]
      | _ => throw (.zeroExtension size)
  | .currentThread dest => return plain [.load .quad (← dest.cpu) (slotMem .self)]
  | .currentThreadToFrame dest =>
      return plain [.load .quad spare (slotMem .self), .store .quad (← frameMem dest) spare]
  | .decodeReference reg slow resume =>
      let r ← reg.cpu
      return plain [.testImm r 2, .jumpIf .notZero slow.index, .arith .and r (-4),
        .jumpIf .zero resume.index, .load .long r (.base r 0)]
  | .verifyObject _ _ => return plain []
  | .jumpTo base offset => return plain [.jumpMem (← memberMem base offset)]
  | .call base offset => return plain [.callMem (← memberMem base offset)]
  | .callFromThread offset => return plain [.callMem (← threadMem offset)]
  | .runnableToNative slow _ => return plain (runnableToNative slow.index)
  | .nativeToRunnable slow scratch result =>
      return plain (← nativeToRunnable slow.index scratch result)
  | .suspendCheck slow =>
      return plain [.testMemImm flagsMem ThreadFlag.suspendOrCheckpoint,
        .jumpIf .notZero slow.index]
  | .exceptionPoll slow =>
      return plain [.compareLong (slotMem .exception) 0, .jumpIf .notZero slow.index]
  | .deliverException =>
      return plain [.load .quad .rdi (slotMem .exception),
        .callMem (.gs (UInt32.ofNat (ThreadBlock.entrypoint .eight .deliverException).value)),
        .breakpoint]
  | .jump target => return plain [.jump target.index]
  | .testMarking target test =>
      return plain [.compareLong (.gs (UInt32.ofNat ThreadBlock.markingOffset.value)) 0,
        .jumpIf (Test.cond test) target.index]
  | .testMarkBit reference target test =>
      let mem ← memberMem reference ObjectHeader.monitorOffset
      return plain [.testMemImm mem ObjectHeader.markBitMask,
        .jumpIf (Test.cond test) target.index]
  | .testByte address target =>
      return plain [.loadImm spare address, .compareByte (.base spare 0) 0,
        .jumpIf .notZero target.index]
  | .bind label => return ⟨[.bind label.index], next⟩

/-- What is on the stack once a frame is built, counted piece by piece: the
return address, each register pushed, and the rest. It must come to the
size of the frame. -/
def cfaOfFrame (size : Nat) (saves : List Register) : Except Violation Nat := do
  let cpus ← cpuSaves saves.reverse
  let pushed ← cpus.foldlM (fun cfa _ => addWord cfa wordSize) wordSize
  let rest ← restOfFrame size cpus.length
  let cfa ← if rest = 0 then pure pushed else addWord pushed rest
  if cfa ≠ size then throw (.stackMiscounted cfa size)
  return cfa

/-- The frame size that debuggers see after an operation: building and
removing a frame set it, adjusting moves it. -/
def cfaAfter (cfa : Nat) : Op → Except Violation Nat
  | .buildFrame size _ saves => cfaOfFrame size saves
  | .removeFrame size _ _ => .ok size
  | .increaseFrame adjust => addWord cfa adjust
  | .decreaseFrame adjust => subWord cfa adjust
  | _ => .ok cfa

/-- The handle of a register that holds `size` bytes. -/
def withSize (src : Register) (size : Nat) : Except Violation Register := do
  match ← src.x86View with
  | .cpu _ => if size ∈ [1, 2, 4, 8] then return src else throw (.registerSize size)
  | _ => throw (.notOfClass src .cpu)

end Crossing.Glue.X86
