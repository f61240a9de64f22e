import Crossing.Layout.Entrypoint
import Crossing.Text.Digits

/-
The entrypoint table of a thread: what each slot points at. Routines of the
runtime are kept by name, since where the loader puts them is nobody's
business here; a slot that someone else has written holds a plain address.

The mark slots are null outside a marking phase. Flipping them on or off
touches exactly the slots the instruction set can use.
-/
namespace Crossing

/-- What a slot points at. -/
inductive Routine where
  | null
  /-- The runtime's own body of a service. -/
  | service (e : Entrypoint)
  /-- The routine that marks the object in a register. -/
  | mark (register : Nat)
  /-- Code at an address other than zero. -/
  | code (address : Nat)
deriving DecidableEq, Repr

namespace Routine

/-- The routine at an address: zero is null. -/
def ofAddress (n : Nat) : Routine := if n = 0 then null else code n

/-- The routine as a listing shows it: an address if one is known. -/
def shown : Routine → String
  | null => Text.hexWord 0
  | code n => Text.hexWord n
  | service _ | mark _ => "<set>"

end Routine

-- ========================================================= mark slots

namespace Isa

/-- Whether a mark slot can ever carry a routine. The slots of the stack
pointer, of reserved and platform registers and of registers the set does
not have stay null. -/
def usesMarkSlot (isa : Isa) (slot : Nat) : Bool :=
  match isa with
  | x86 => slot ≤ 3 || (5 ≤ slot && slot ≤ 7)
  | x86_64 => slot ≤ 3 || (5 ≤ slot && slot ≤ 15)
  | arm => slot ≤ 11
  | arm64 => slot ≤ 15 || slot = 17 || (19 ≤ slot && slot ≤ 29)
  | riscv64 => slot ≤ 1 || (5 ≤ slot && slot ≤ 8) || (10 ≤ slot && slot ≤ 29)

/-- The register whose mark routine lives in a slot. The two highest
registers of RISC-V have no slots of their own and borrow those of the zero
and return-address registers. -/
def markSlotRegister (isa : Isa) (slot : Nat) : Nat :=
  match isa, slot with
  | riscv64, 0 => 30
  | riscv64, 1 => 31
  | _, _ => slot

/-- Whether the runtime brings a body for a service. A set that has the
operation in hardware, or whose compiler expands it inline, leaves the slot
null. -/
def provides (isa : Isa) (e : Entrypoint) : Bool :=
  match e with
  | .fmod | .fmodf =>
      match isa with
      | x86 | x86_64 => false
      | arm | arm64 | riscv64 => true
  | .idivmod => isa = arm
  | .d2l | .f2l | .ldiv | .lmod | .lmul | .shlLong | .shrLong | .ushrLong =>
      match isa with
      | x86 | x86_64 | arm => true
      | arm64 | riscv64 => false
  | .stringCompareTo =>
      match isa with
      | x86 | x86_64 => true
      | arm | arm64 | riscv64 => false
  | _ => true

end Isa

-- ============================================================== table

/-- What every slot points at; of the mark slots only the first
`Entrypoint.markCount` exist. -/
structure EntrypointTable where
  fixed : Entrypoint → Routine
  marks : Nat → Routine

namespace EntrypointTable

/-- Every slot null. -/
def empty : EntrypointTable := ⟨fun _ => .null, fun _ => .null⟩

/-- The bodies the runtime brings for an instruction set; the mark slots
are null. -/
def ofIsa (isa : Isa) : EntrypointTable :=
  ⟨fun e => if isa.provides e then .service e else .null, fun _ => .null⟩

def set (t : EntrypointTable) (e : Entrypoint) (r : Routine) : EntrypointTable :=
  { t with fixed := fun e' => if e' = e then r else t.fixed e' }

/-- Points every usable mark slot at its routine, or at null. -/
def flipMarks (t : EntrypointTable) (isa : Isa) (active : Bool) : EntrypointTable :=
  { t with
    marks := fun slot =>
      if isa.usesMarkSlot slot then
        if active then .mark (isa.markSlotRegister slot) else .null
      else t.marks slot }

/-- What a mark slot points at. -/
def mark (t : EntrypointTable) (slot : Nat) : Except Violation Routine :=
  (Entrypoint.markIndex slot).map fun _ => t.marks slot

/-- The mark slots in order. -/
def markSlots (t : EntrypointTable) : List Routine := (List.range Entrypoint.markCount).map t.marks

/-- All slots in order, the fixed ones first. -/
def slots (t : EntrypointTable) : List Routine := Entrypoint.all.map t.fixed ++ t.markSlots

/-- Number of mark slots that carry a routine. -/
def markedCount (t : EntrypointTable) : Nat := t.markSlots.countP (· ≠ .null)

/-- A listing of the fixed slots by name. -/
def shown (t : EntrypointTable) : String :=
  "\x7b" ++ ", ".intercalate (Entrypoint.all.map fun e => e.name ++ ": " ++ (t.fixed e).shown) ++ "\x7d"

end EntrypointTable

end Crossing
