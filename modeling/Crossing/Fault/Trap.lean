import Crossing.Layout.Table

/-
A trapped thread as a fault handler sees it: where it was, what it touched,
the code around it and the words of its stack that can be read. A handler
may push words, set the link register or the first argument, and choose
where the thread resumes.
-/
namespace Crossing

/-- The register state of a trapped thread. -/
structure Trap where
  pc : Nat
  sp : Nat
  faultAddress : Nat
  /-- Bytes of a stack word. -/
  wordBytes : Nat
  codeBase : Nat := 0
  code : List UInt8 := []
  /-- The readable words of the stack, by address. -/
  words : Nat → Option Nat := fun _ => none
  linkRegister : Nat := 0
  /-- The argument registers of the native convention. -/
  arguments : Fin 8 → Nat := fun _ => 0
  /-- Where the thread goes on, if not at the faulting instruction. -/
  resumeAt : Option Routine := none

-- argument registers are written as literals
instance arguments_nonzero : @NeZero Nat Zero.ofOfNat0 8 := ⟨by decide⟩

namespace Trap

/-- Up to `n` bytes of code from an address on. -/
def readCode (t : Trap) (address n : Nat) : List UInt8 :=
  if address < t.codeBase then [] else (t.code.drop (address - t.codeBase)).take n

/-- Pushes a word onto the trapped stack. -/
def push (t : Trap) (value : Nat) : Except Violation Trap := do
  let sp ← subWord t.sp t.wordBytes
  return { t with sp, words := fun a => if a = sp then some value else t.words a }

def setArgument (t : Trap) (index : Fin 8) (value : Nat) : Trap :=
  { t with arguments := fun i => if i = index then value else t.arguments i }

/-- Lets the thread go on in a routine. -/
def redirect (t : Trap) (r : Routine) : Trap := { t with resumeAt := some r }

end Trap

end Crossing
