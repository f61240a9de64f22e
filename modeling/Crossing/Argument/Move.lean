import Crossing.Argument.Location
import Crossing.Register.View

/-
Moving arguments from where one calling convention put them to where
another one wants them. `plan` turns three lists of equal length (targets,
sources and reference slots) into primitive moves to be carried out in
order.

Stack targets are written first, while every source register still holds
what it held. Register targets are then filled in rounds over the argument
list: a register is written only when no move still to come reads it. A
round that writes nothing means that the registers left form a cycle, which
is refused.

A reference is handed over as the address of a frame slot that holds it
(its reference slot), or as null. Only the first argument, the receiver or
the class, is known not to be null.
-/
namespace Crossing

/-- One primitive move. -/
inductive ArgMove where
  /-- Stores the 32 bits of a reference in its slot. -/
  | spillReference (reg : Register) (slot : FrameOffset)
  | storeToStack (dest : FrameOffset) (src : Register) (size : Nat)
  /-- Writes the address of a reference's slot, or null, to the stack. -/
  | handleToStack (dest slot : FrameOffset) (nullAllowed : Bool)
  | copyToStack (dest src : FrameOffset) (size : Nat)
  | moveToRegister (dest src : Register) (size : Nat)
  /-- Writes the address of a reference's slot, or null, to a register. The
  reference is read from `held` if a register holds it, else from the slot. -/
  | handleToRegister (dest : Register) (slot : FrameOffset) (held : Option Register)
      (nullAllowed : Bool)
  | loadToRegister (dest : Register) (src : FrameOffset) (size : Nat)
deriving DecidableEq, Repr

/-- What planning has to know about a machine's registers. -/
structure RegisterModel where
  /-- The number of the physical register that a handle names; the handles
  of one register share it. -/
  place : Register → Except Violation Nat
  /-- The handle of the same register in the width of a pointer. -/
  pointer : Register → Except Violation Register
  pointerSize : Nat

namespace RegisterModel

/-- Registers of x86-64. -/
def x86 : RegisterModel := ⟨Register.x86Place, fun r => .ok r, 8⟩

/-- Registers of ARM64. -/
def arm64 : RegisterModel := ⟨Register.a64Place, Register.overlappingX, 8⟩

/-- Sixty-four registers, each with one handle. -/
def flat (pointerSize : Nat) : RegisterModel :=
  ⟨fun r => if 0 ≤ r.id ∧ r.id < 64 then .ok r.id.toNat else .error .shlOverflow,
    fun r => .ok r, pointerSize⟩

end RegisterModel

namespace ArgMove

/-- A register target with what the second phase needs to fill it. -/
structure Pending where
  dest : Register
  size : Nat
  place : Nat
  /-- The source, and the physical register it is in, if it is in one. -/
  source : Location
  sourcePlace : Option Nat
  slot : FrameOffset
  nullAllowed : Bool
deriving DecidableEq, Repr

/-- How far planning has come. -/
structure Progress where
  /-- The moves planned so far, in order. -/
  moves : Array ArgMove := #[]
  /-- The register targets seen, in argument order. -/
  pending : Array Pending := #[]
  /-- Physical registers that a move still to come reads. -/
  reads : List Nat := []
  /-- Physical registers still to be written. -/
  writes : List Nat := []
deriving DecidableEq, Repr

/-- Adds a register to a set of registers. -/
def addPlace (place : Nat) (places : List Nat) : List Nat :=
  if place ∈ places then places else place :: places

/-- Takes a register out of a set of registers. -/
def dropPlace (place : Nat) (places : List Nat) : List Nat := places.filter (· ≠ place)

/-- First phase for one argument that stays in registers. A register that
already is where it should be takes no part in the rounds. -/
def queue (model : RegisterModel) (p : Progress) (dest : Register) (size : Nat)
    (source : Location) (slot : FrameOffset) (nullAllowed : Bool) : Except Violation Progress :=
  match source with
  | .register reg _ => do
      let origin ← model.place reg
      let target ← model.place dest
      let pending := p.pending.push ⟨dest, size, target, source, some origin, slot, nullAllowed⟩
      if origin = target then return { p with pending }
      else
        return { p with pending, reads := addPlace origin p.reads,
                        writes := addPlace target p.writes }
  | .stack .. => do
      let target ← model.place dest
      let pending := p.pending.push ⟨dest, size, target, source, none, slot, nullAllowed⟩
      return { p with pending, writes := addPlace target p.writes }

/-- First phase for one stack target. -/
def toStack (dest : FrameOffset) (size : Nat) (source : Location) (slot : FrameOffset)
    (nullAllowed : Bool) : ArgMove :=
  match source with
  | .register reg _ => .storeToStack dest reg size
  | .stack offset _ =>
      if slot.isReference then .handleToStack dest slot nullAllowed
      else .copyToStack dest offset size

/-- First phase for one argument. A reference in a register is spilled and
turned into the address of its slot where it is. -/
def first (model : RegisterModel) (p : Progress) (index : Nat) (dest source : Location)
    (slot : FrameOffset) : Except Violation Progress := do
  let nullAllowed := index ≠ 0
  let (p, source) ← match source with
    | .register reg _ =>
        if slot.isReference then do
          let wide ← model.pointer reg
          let moves := (p.moves.push (.spillReference reg slot)).push
            (.handleToRegister wide slot (some reg) nullAllowed)
          pure ({ p with moves }, Location.register wide model.pointerSize)
        else pure (p, source)
    | .stack .. => pure (p, source)
  match dest with
  | .register reg size => queue model p reg size source slot nullAllowed
  | .stack offset size =>
      return { p with moves := p.moves.push (toStack offset size source slot nullAllowed) }

/-- First phase for all arguments from `index` on. -/
def firstAll (model : RegisterModel) (p : Progress) (index : Nat) :
    List Location → List Location → List FrameOffset → Except Violation Progress
  | dest :: dests, source :: sources, slot :: slots => do
      firstAll model (← first model p index dest source slot) (index + 1) dests sources slots
  | _, _, _ => .ok p

/-- The move that fills a register target. -/
def Pending.move (t : Pending) : ArgMove :=
  match t.source with
  | .register reg _ => .moveToRegister t.dest reg t.size
  | .stack offset _ =>
      if t.slot.isReference then .handleToRegister t.dest t.slot none t.nullAllowed
      else .loadToRegister t.dest offset t.size

/-- Second phase for one register target: it is filled if it is still to be
written and nothing still reads the register. -/
def fill (p : Progress) (t : Pending) : Progress :=
  if t.place ∈ p.writes ∧ t.place ∉ p.reads then
    { p with
      moves := p.moves.push t.move
      reads := match t.sourcePlace with
        | some place => dropPlace place p.reads
        | none => p.reads
      writes := dropPlace t.place p.writes }
  else p

/-- One round over all register targets. -/
def round (p : Progress) : Progress := p.pending.foldl fill p

/-- Rounds until every register is written. -/
def rounds (p : Progress) : Except Violation Progress :=
  if p.writes = [] then .ok p
  else if (round p).writes.length < p.writes.length then rounds (round p)
  else .error .registerCycle
termination_by p.writes.length

/-- The moves that bring every source to its target, in order. -/
def plan (model : RegisterModel) (dests sources : List Location) (slots : List FrameOffset) :
    Except Violation (List ArgMove) := do
  if dests.length ≠ sources.length then throw .sourcesDifferInLength
  if dests.length ≠ slots.length then throw .referencesDifferInLength
  let p ← firstAll model {} 0 dests sources slots
  return (← rounds p).moves.toList

end ArgMove

end Crossing
