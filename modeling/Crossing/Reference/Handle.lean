import Crossing.Text.Digits

/-
The handles that stand for objects in native code. The low two bits of a
handle say what it is. Handles of a transition frame and of a local table
point straight at a 32-bit slot that holds the reference, so that generated
code can follow them without a call; global handles are numbers of table
entries.
-/
namespace Crossing

/-- A compressed reference to an object; zero is null. -/
abbrev HeapRef := UInt32

/-- What a handle is. -/
inductive HandleKind where
  | transition
  | local
  | global
  | weakGlobal
deriving DecidableEq, Repr

namespace HandleKind

def name : HandleKind → String
  | transition => "JniTransition"
  | .local => "Local"
  | global => "Global"
  | weakGlobal => "WeakGlobal"

/-- The low two bits of a handle of this kind. -/
def tag : HandleKind → Nat
  | transition => 0
  | .local => 1
  | global => 2
  | weakGlobal => 3

/-- Whether handles of this kind number a table entry. -/
def isGlobal : HandleKind → Bool
  | global | weakGlobal => true
  | transition | .local => false

end HandleKind

/-- A handle as native code holds it. -/
structure Handle where
  bits : Nat
deriving DecidableEq, Repr

namespace Handle

/-- The handle of the null reference. -/
def null : Handle := ⟨0⟩

def kind (h : Handle) : HandleKind :=
  match h.bits % 4 with
  | 0 => .transition
  | 1 => .local
  | 2 => .global
  | _ => .weakGlobal

/-- The slot a transition or local handle points at. -/
def slot (h : Handle) : Nat := h.bits / 4 * 4

/-- The table entry a global handle numbers. -/
def entry (h : Handle) : Nat := h.bits / 4

/-- The handle of a local slot. -/
def ofSlot (address : Nat) : Handle := ⟨address + HandleKind.local.tag⟩

/-- The handle of a global table entry. -/
def ofEntry (entry : Nat) (weak : Bool) : Handle :=
  ⟨4 * entry + (if weak then HandleKind.weakGlobal else HandleKind.global).tag⟩

end Handle

/-- Why a handle could not be made or followed. -/
inductive HandleError where
  | localTableFull (capacity : Nat)
  | invalidGlobal (h : Handle)
deriving DecidableEq, Repr

namespace HandleError

def message : HandleError → String
  | localTableFull capacity => s!"local reference table full ({capacity} entries)"
  | invalidGlobal h => s!"stale or invalid global reference {Text.hexWord h.bits}"

end HandleError

end Crossing
