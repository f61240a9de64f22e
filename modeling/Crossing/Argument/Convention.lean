import Crossing.Argument.Location
import Crossing.Argument.Shorty
import Crossing.Register.View

/-
The two calling conventions a native method's stub stands between.

Managed code passes the method in a fixed register and the arguments in
registers after it. It reserves an eight-byte home slot for every argument
in the caller's outgoing area, right after the slot of the method, and an
argument that finds no register is passed there. Native code follows the
platform's C convention.
-/
namespace Crossing

/-- What native code expects of its caller. -/
inductive NativeKind where
  /-- The thread leaves managed code and comes back. -/
  | normal
  /-- The thread stays in managed code and polls when it returns. -/
  | fast
  /-- Static, without references, and without environment or class. -/
  | critical
deriving DecidableEq, Repr

def NativeKind.name : NativeKind → String
  | normal => "normal"
  | fast => "fast"
  | critical => "critical"

/-- Registers and frame of a stub on one instruction set. -/
structure Convention where
  isa : Isa
  /-- Holds the method when the stub is entered. -/
  method : Register
  managedCore : List Register
  managedFp : List Register
  nativeCore : List Register
  nativeFp : List Register
  calleeSaves : List Register
  /-- Saved registers that the stub may use once its frame stands. -/
  scratch : Register × Register × Register
  /-- Carries the method to native code of the critical kind. -/
  hidden : Register
  /-- Where native code returns an integer or a pointer. -/
  integerResult : Register
  frameSize : Nat
deriving DecidableEq, Repr

namespace Convention

/-- Bytes of a home slot and of a native stack argument. -/
def slotSize : Nat := 8

def x86_64 : Convention :=
  let xmms (ns : List (Fin 16)) := ns.map X86.xmmHandle
  let regs (rs : List X86.Reg) := rs.map X86.Reg.handle
  { isa := .x86_64
    method := X86.Reg.rdi.handle
    managedCore := regs [.rsi, .rdx, .rcx, .r8, .r9]
    managedFp := xmms [0, 1, 2, 3, 4, 5, 6, 7]
    nativeCore := regs [.rdi, .rsi, .rdx, .rcx, .r8, .r9]
    nativeFp := xmms [0, 1, 2, 3, 4, 5, 6, 7]
    calleeSaves := regs [.rbx, .rbp, .r12, .r13, .r14, .r15] ++ xmms [12, 13, 14, 15]
    scratch := (X86.Reg.rbx.handle, X86.Reg.rbp.handle, X86.Reg.r12.handle)
    hidden := X86.Reg.rax.handle
    integerResult := X86.Reg.rax.handle
    -- return address, six pushes, four spills, method and result slots, padding
    frameSize := 112 }

def arm64 : Convention :=
  let xs (ns : List (Fin 32)) := ns.map fun n => A64.Reg.xHandle ⟨n⟩
  let ds (ns : List (Fin 32)) := ns.map A64.dHandle
  { isa := .arm64
    method := A64.Reg.xHandle ⟨0⟩
    managedCore := xs [1, 2, 3, 4, 5, 6, 7]
    managedFp := ds [0, 1, 2, 3, 4, 5, 6, 7]
    nativeCore := xs [0, 1, 2, 3, 4, 5, 6, 7]
    nativeFp := ds [0, 1, 2, 3, 4, 5, 6, 7]
    calleeSaves := xs [19, 20, 21, 22, 23, 24, 25, 26, 27, 28, 29, 30]
      ++ ds [8, 9, 10, 11, 12, 13, 14, 15]
    scratch := (A64.Reg.xHandle ⟨21⟩, A64.Reg.xHandle ⟨22⟩, A64.Reg.xHandle ⟨23⟩)
    hidden := A64.Reg.xHandle ⟨15⟩
    integerResult := A64.Reg.xHandle ⟨0⟩
    -- method and result slots, twelve core and eight floating-point saves
    frameSize := 176 }

/-- The conventions of an instruction set, if stubs exist for it. -/
def ofIsa? : Isa → Option Convention
  | .x86_64 => some x86_64
  | .arm64 => some arm64
  | _ => none

/-- The handle of `reg` for a value of `size` bytes. Only ARM64 tells
widths apart, and there it must be one of its registers. -/
def view (c : Convention) (reg : Register) (size : Nat) : Except Violation Register :=
  match c.isa with
  | .arm64 => do
      match ← reg.a64View with
      | .x r | .w r => return if size = 8 then r.xHandle else r.wHandle
      | .d n | .s n => return if size = 8 then A64.dHandle n else A64.sHandle n
      | .none => throw (.notOfClass reg .fp)
  | _ => return reg

/-- The same for a register of the convention, which has every view. -/
def sized (c : Convention) (reg : Register) (size : Nat) : Register :=
  match c.isa, reg.a64View with
  | .arm64, .ok (.x r) | .arm64, .ok (.w r) => if size = 8 then r.xHandle else r.wHandle
  | .arm64, .ok (.d n) | .arm64, .ok (.s n) => if size = 8 then A64.dHandle n else A64.sHandle n
  | _, _ => reg

/-- The first register for integer arguments of native code. -/
def firstNative (c : Convention) : Register := c.nativeCore.headD .none

/-- Where native code returns a result, sized for it. -/
def resultRegister (c : Convention) : Option ValueType → Register
  | none => .none
  | some t =>
      if t.isFloating then c.sized (c.nativeFp.headD .none) t.nativeSize
      else c.sized c.integerResult t.nativeSize

/-- The same as a view that is asked for. -/
def resultView (c : Convention) : Option ValueType → Except Violation Register
  | none => .ok .none
  | some t =>
      if t.isFloating then c.view (c.nativeFp.headD .none) t.nativeSize
      else c.view c.integerResult t.nativeSize

-- ============================================================ assignment

/-- How many registers of each class, and stack slots, are taken. -/
structure Taken where
  core : Nat := 0
  fp : Nat := 0
  stack : Nat := 0
deriving DecidableEq, Repr

/-- The next register for a value of type `t`, if one is left. -/
def Taken.next (k : Taken) (core fp : List Register) (t : ValueType) : Option Register × Taken :=
  if t.isFloating then (fp[k.fp]?, { k with fp := k.fp + 1 })
  else (core[k.core]?, { k with core := k.core + 1 })

/-- Where a value of `size` bytes is: in the register handed out for it, or
in `slot` if there was none left. -/
def locate (c : Convention) (reg : Option Register) (size : Nat) (slot : FrameOffset) :
    Except Violation Location :=
  match reg with
  | some reg => do Location.inRegister (← c.view reg size) size
  | none => .ok (.stack slot size)

-- ====================================================== managed arguments

/-- One argument as managed code passes it. -/
structure ManagedArg where
  type : ValueType
  location : Location
  /-- Its slot in the caller's outgoing area. -/
  home : FrameOffset
deriving DecidableEq, Repr

/-- The home slot of a reference; other arguments have no such slot. -/
def ManagedArg.reference (a : ManagedArg) : FrameOffset :=
  if a.type = .reference then a.home else Offset.noReference

/-- Lays out arguments from number `index` on. -/
def managedFrom (c : Convention) (callerArea : Nat) (index : Nat) (k : Taken) :
    List ValueType → Except Violation (List ManagedArg)
  | [] => .ok []
  | t :: ts => do
      let home : FrameOffset := ⟨← addWord callerArea (slotSize * (index + 1))⟩
      let (reg, k) := k.next c.managedCore c.managedFp t
      let location ← c.locate reg t.managedSize home
      return ⟨t, location, home⟩ :: (← managedFrom c callerArea (index + 1) k ts)

/-- The arguments of a method as managed code passes them. `callerArea` is
the offset of the caller's outgoing area from the stack pointer. -/
def managedArguments (c : Convention) (s : Shorty) (isStatic : Bool) (callerArea : Nat) :
    Except Violation (List ManagedArg) :=
  managedFrom c callerArea 0 {} (s.arguments isStatic)

/-- The arguments that arrive in registers, with their home slots. -/
def inRegisters (args : List ManagedArg) : List (Register × FrameOffset × Nat) :=
  args.filterMap fun a => match a.location with
    | .register reg size => some (reg, a.home, size)
    | .stack .. => none

-- ======================================================= native arguments

/-- The arguments as native code expects them. -/
structure NativeArgs where
  /-- The thread's native environment. -/
  env : Option Location
  /-- The class of a static method. -/
  class_ : Option Location
  /-- One location for each managed argument, in the same order. -/
  args : List Location
  /-- The method, for the critical kind. -/
  hidden : Option Location
  /-- Stack space for the arguments. -/
  outArgsSize : Nat
deriving DecidableEq, Repr

/-- The place of the next native argument. -/
def nativeNext (c : Convention) (k : Taken) (t : ValueType) :
    Except Violation (Location × Taken) := do
  let (reg, k) := k.next c.nativeCore c.nativeFp t
  let loc ← c.locate reg t.nativeSize ⟨slotSize * k.stack⟩
  return (loc, if reg.isSome then k else { k with stack := k.stack + 1 })

/-- The place of a pointer that is passed on a condition only. -/
def nativeWhen (c : Convention) (passed : Bool) (k : Taken) :
    Except Violation (Option Location × Taken) :=
  if passed then do
    let (loc, k) ← nativeNext c k .long
    return (some loc, k)
  else return (none, k)

/-- The places of a list of native arguments. -/
def nativeFrom (c : Convention) (k : Taken) :
    List ValueType → Except Violation (List Location × Taken)
  | [] => .ok ([], k)
  | t :: ts => do
      let (loc, k) ← nativeNext c k t
      let (locs, k) ← nativeFrom c k ts
      return (loc :: locs, k)

/-- The least multiple of `m` that is not below `n`. -/
def roundUp (n m : Nat) : Nat := (n + m - 1) / m * m

/-- The arguments of a method as native code expects them: environment and
class first, except for the critical kind. -/
def nativeArguments (c : Convention) (s : Shorty) (isStatic : Bool) (kind : NativeKind) :
    Except Violation NativeArgs := do
  let critical := kind = .critical
  let (env, k) ← c.nativeWhen (¬critical) {}
  let (class_, k) ← c.nativeWhen (isStatic ∧ ¬critical) k
  let (args, k) ← c.nativeFrom k (s.arguments isStatic)
  let hidden ← (if critical then some c.hidden else none).mapM (Location.inRegister · 8)
  return { env, class_, args, hidden, outArgsSize := roundUp (slotSize * k.stack) 16 }

end Convention

end Crossing
