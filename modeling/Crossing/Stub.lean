import Crossing.Argument.Convention
import Crossing.Glue.Assembler

/-
Stubs: the compiled entry points of native methods. Managed code calls a
stub like any other method. The stub builds a frame, leaves managed code,
turns references into handles, calls the native function, comes back and
hands the result over. What is unlikely (marking, a pending request, a
global handle, an exception) is dealt with in slow paths that stand after
the return.

A stub is first written down as a list of glue operations, then assembled.
-/
namespace Crossing

open Glue

/-- What is asked of a stub besides its signature. -/
structure StubOptions where
  kind : NativeKind := .normal
  isStatic : Bool := false
  /-- Whether the published stack pointer is tagged as a frame of
  just-in-time code. -/
  tagSp : Bool := false
deriving DecidableEq, Repr

/-- Why a method gets no stub. -/
inductive StubError where
  | shorty (e : ShortyError)
  | criticalNotStatic
  | criticalWithReferences
  | unsupported (u : Unsupported)
  /-- The code cannot be encoded. -/
  | refused (v : Violation)
deriving DecidableEq, Repr

def StubError.message : StubError → String
  | shorty e => e.message
  | criticalNotStatic => "@CriticalNative methods must be static"
  | criticalWithReferences => "@CriticalNative methods cannot take or return references"
  | unsupported u => u.message
  | refused v => v.message

/-- Finished stub code. -/
structure Stub where
  isa : Isa
  /-- The signature as it was given. -/
  shorty : String
  kind : NativeKind
  isStatic : Bool
  frameSize : Nat
  outArgsSize : Nat
  code : Array UInt8
deriving DecidableEq, Repr

namespace Stub

-- ============================================================= labels

/-- The branch targets of a stub: each slow path, and where it resumes. -/
inductive Mark where
  | classSlow
  | classResume
  | startSlow
  | startResume
  | endSlow
  | endResume
  | decodeSlow
  | decodeResume
  | suspendSlow
  | suspendResume
  | exceptionSlow
deriving DecidableEq, Repr

def Mark.index : Mark → Nat
  | classSlow => 0
  | classResume => 1
  | startSlow => 2
  | startResume => 3
  | endSlow => 4
  | endResume => 5
  | decodeSlow => 6
  | decodeResume => 7
  | suspendSlow => 8
  | suspendResume => 9
  | exceptionSlow => 10

/-- How many labels a stub uses. -/
def markCount : Nat := 11

-- =============================================================== plan

/-- Everything a stub's code is made from. -/
structure Plan where
  abi : Convention
  signature : Shorty
  options : StubOptions
  managed : List Convention.ManagedArg
  native : Convention.NativeArgs
  /-- The method, where it is handed on as the class. -/
  classSource : Option Location
  /-- The method, where it is handed on as the hidden argument. -/
  hiddenSource : Option Location
  /-- Where native code returns the result. -/
  resultRegister : Register
deriving DecidableEq, Repr

namespace Plan

/-- Lays out a stub. The caller's area lies above the stub's frame and its
outgoing arguments. -/
def make (abi : Convention) (signature : Shorty) (options : StubOptions) :
    Except Violation Plan := do
  let native ← abi.nativeArguments signature options.isStatic options.kind
  let callerArea ← addWord abi.frameSize native.outArgsSize
  let managed ← abi.managedArguments signature options.isStatic callerArea
  let resultRegister ← abi.resultView signature.result
  let classSource ← native.class_.mapM fun _ => Location.inRegister abi.method 8
  let hiddenSource ← native.hidden.mapM fun _ => Location.inRegister abi.method 8
  return { abi, signature, options, managed, native, classSource, hiddenSource, resultRegister }

variable (p : Plan)

def isCritical : Bool := p.options.kind = .critical

/-- Whether the class of the method must be marked before native code sees
it. -/
def hasClass : Prop := p.options.isStatic ∧ ¬p.isCritical

instance : Decidable p.hasClass := inferInstanceAs (Decidable (_ ∧ _))

/-- The marks as labels of the first assembler made. -/
def label (m : Mark) : Label := ⟨p.abi.isa, 0, m.index⟩

/-- The method's slot, at the lower end of the frame. -/
def methodSlot : FrameOffset := ⟨p.native.outArgsSize⟩

/-- Where a result is kept while the runtime is called. -/
def resultSlot : FrameOffset := ⟨p.native.outArgsSize + 8⟩

def entrypoint (e : Entrypoint) : Op :=
  .callFromThread (ThreadBlock.entrypoint p.abi.isa.pointerSize e)

def slot (s : ThreadSlot) : ThreadOffset := ThreadBlock.offset p.abi.isa.pointerSize s

-- ---------------------------------------------- saving across calls

/-- Saves the arguments that are in registers to their home slots. -/
def spillManaged : List Op :=
  (Convention.inRegisters p.managed).map fun (reg, home, size) => .store home reg size

/-- Brings them back, and the method. -/
def reloadManaged : List Op :=
  ((Convention.inRegisters p.managed).map fun (reg, home, size) => Op.load reg home size)
    ++ [.load p.abi.method p.methodSlot 8]

def saveResult : List Op :=
  if p.resultRegister.isSome then
    [.store p.resultSlot p.resultRegister p.signature.nativeResultSize]
  else []

def restoreResult : List Op :=
  if p.resultRegister.isSome then
    [.load p.resultRegister p.resultSlot p.signature.nativeResultSize]
  else []

-- ------------------------------------------------------- marshalling

/-- Targets, sources and reference slots of the arguments: the method as
class of a static method, the managed arguments, and the method as hidden
argument of the critical kind. -/
def marshalling : List Location × List Location × List FrameOffset :=
  let class_ := p.native.class_.toList
  let hidden := p.native.hidden.toList
  (class_ ++ p.native.args ++ hidden,
    p.classSource.toList ++ p.managed.map (·.location) ++ p.hiddenSource.toList,
    class_.map (fun _ => Offset.noReference) ++ p.managed.map (·.reference)
      ++ hidden.map (fun _ => Offset.noReference))

/-- Loads the native environment into its place. -/
def loadEnv : List Op :=
  match p.native.env with
  | some (.register reg _) => [.loadPointerFromThread reg (p.slot .jniEnv)]
  | some (.stack offset _) =>
      [.loadPointerFromThread p.abi.scratch.1 (p.slot .jniEnv), .storePointer offset p.abi.scratch.1]
  | none => []

/-- Calls through the method's native entry point. -/
def callNative : List Op :=
  let entry := (MethodRecord.jniEntryOffset p.abi.isa.pointerSize).recast .plain
  if p.isCritical then [.call p.abi.hidden entry]
  else [.load p.abi.scratch.2.2 p.methodSlot 8, .call p.abi.scratch.2.2 entry]

/-- Native code leaves the upper bits of small results undefined. -/
def extendResult : List Op :=
  match p.signature.result with
  | some .byte => [.signExtend p.resultRegister 1]
  | some .short => [.signExtend p.resultRegister 2]
  | some .boolean => [.zeroExtend p.resultRegister 1]
  | some .char => [.zeroExtend p.resultRegister 2]
  | _ => []

-- ------------------------------------------------------------ the code

def scratchList : List Register := [p.abi.scratch.1, p.abi.scratch.2.1, p.abi.scratch.2.2]

/-- From the entry to the native call. -/
def entry : List Op :=
  let method := if p.isCritical then Register.none else p.abi.method
  let publish := if p.isCritical then []
    else [Op.storeStackPointer (p.slot .topOfManagedStack) p.options.tagSp]
  let classCheck := if p.hasClass then
      [Op.testMarking (p.label .classSlow) .notZero, .bind (p.label .classResume)]
    else []
  let leave := if p.options.kind = .normal then
      [Op.runnableToNative (p.label .startSlow) p.scratchList, .bind (p.label .startResume)]
    else []
  let (dests, sources, slots) := p.marshalling
  [.buildFrame p.abi.frameSize method p.abi.calleeSaves] ++ publish
    ++ [.increaseFrame p.native.outArgsSize] ++ classCheck ++ leave
    ++ [.moveArguments dests sources slots] ++ p.loadEnv

/-- From the native call to the return. -/
def exit : List Op :=
  let comeBack := if p.options.kind = .normal then
      [Op.nativeToRunnable (p.label .endSlow) p.scratchList p.resultRegister,
        .bind (p.label .endResume)]
    else []
  let decode := if p.signature.result = some .reference then
      [Op.decodeReference p.resultRegister (p.label .decodeSlow) (p.label .decodeResume),
        .bind (p.label .decodeResume)]
    else []
  let poll := if p.options.kind = .fast then
      [Op.suspendCheck (p.label .suspendSlow), .bind (p.label .suspendResume)]
    else []
  let exception := if p.isCritical then [] else [Op.exceptionPoll (p.label .exceptionSlow)]
  p.extendResult ++ comeBack ++ decode ++ poll ++ [.decreaseFrame p.native.outArgsSize]
    ++ exception ++ [.removeFrame p.abi.frameSize p.abi.calleeSaves (¬p.isCritical)]

/-- Marks the class of a static method. `root` is the 32-bit handle of the
register that the class is loaded into. -/
def classBarrier (root : Register) : List Op :=
  let tmp := p.abi.scratch.2.2
  [.bind (p.label .classSlow), .load tmp p.methodSlot 8,
    .loadRoot root tmp MethodRecord.declaringClassOffset,
    .testMarkBit tmp (p.label .classResume) .notZero]
    ++ p.spillManaged ++ [p.entrypoint .readBarrierJni] ++ p.reloadManaged
    ++ [.jump (p.label .classResume)]

def methodStart : List Op :=
  [.bind (p.label .startSlow)] ++ p.spillManaged ++ [p.entrypoint .jniMethodStart]
    ++ p.reloadManaged ++ [.jump (p.label .startResume)]

def methodEnd : List Op :=
  [.bind (p.label .endSlow)] ++ p.saveResult ++ [p.entrypoint .jniMethodEnd]
    ++ p.restoreResult ++ [.jump (p.label .endResume)]

def decodeGlobal : List Op :=
  [.bind (p.label .decodeSlow), .move p.abi.firstNative p.resultRegister 8,
    p.entrypoint .jniDecodeReferenceResult, .jump (p.label .decodeResume)]

def suspend : List Op :=
  [.bind (p.label .suspendSlow)] ++ p.saveResult ++ [p.entrypoint .testSuspend]
    ++ p.restoreResult ++ [.jump (p.label .suspendResume)]

def exception : List Op := [.bind (p.label .exceptionSlow), .deliverException]

/-- The slow paths, in the order the fast path branches to them. -/
def slowPaths (root : Register) : List Op :=
  (if p.hasClass then p.classBarrier root else [])
    ++ (if p.options.kind = .normal then p.methodStart ++ p.methodEnd else [])
    ++ (if p.signature.result = some .reference then p.decodeGlobal else [])
    ++ (if p.options.kind = .fast then p.suspend else [])
    ++ (if p.isCritical then [] else p.exception)

end Plan

-- =========================================================== assembly

/-- An assembler that has handed out a label for each mark. -/
def start (target : Target) : Assembler :=
  { target, owner := 0, buffer := { labels := Array.replicate markCount none } }

/-- Assembles a plan. When native code is called, the frame and the outgoing
arguments must be all that is on the stack. -/
def assemble (target : Target) (p : Plan) : Except Violation (Array UInt8) := do
  let called ← (start target).applyAll (p.entry ++ p.callNative)
  let expected ← addWord p.abi.frameSize p.native.outArgsSize
  if called.cfaOffset ≠ expected then throw (.stackMiscounted called.cfaOffset expected)
  let returned ← called.applyAll p.exit
  let root ← if p.hasClass then returned.withSize p.abi.scratch.2.2 4 else pure Register.none
  let a ← returned.applyAll (p.slowPaths root)
  (← a.finalize).code

/-- Compiles the stub of a native method. The signature is looked at first,
then the restrictions of the critical kind, then the instruction set. -/
def compile (isa : Isa) (features : Features) (shorty : String) (options : StubOptions) :
    Except StubError Stub := do
  let signature ← (Shorty.parse shorty).mapError .shorty
  if options.kind = .critical ∧ ¬options.isStatic then throw .criticalNotStatic
  if options.kind = .critical ∧ signature.hasReferences then throw .criticalWithReferences
  let target ← (Target.ofIsa isa features).mapError .unsupported
  match Convention.ofIsa? isa with
  | none => throw (.unsupported ⟨isa⟩)
  | some abi =>
      let plan ← (Plan.make abi signature options).mapError .refused
      let code ← (assemble target plan).mapError .refused
      return { isa, shorty, kind := options.kind, isStatic := options.isStatic
               frameSize := abi.frameSize, outArgsSize := plan.native.outArgsSize, code }

end Stub

end Crossing
