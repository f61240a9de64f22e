import Crossing.Proofs.Stub.Assembly
import Crossing.Proofs.Stub.Signature

/-
Where arguments are, for any signature: no two of them share a bit. A seat
counts the arguments of its class that came before, so it says whether a
register is left; registers of different places do not overlap, and neither
do slots of different numbers. Both sides are instances of `Places`, one
list of types read against one list of locations. What is particular to a
side (home slots, or dense slots and the area that holds them) is said in
`ManagedPlaces` and `NativePlaces`.
-/
namespace Crossing

/-- The offset of a stack location. -/
def Location.offset? : Location → Option Nat
  | .stack offset _ => some offset.value
  | .register .. => none

namespace Convention

open ValueType

-- ============================================================ non-overlap

/-- Two handles share no bits. -/
def NoOverlap (c : Convention) (r s : Register) : Prop :=
  match c.isa with
  | .arm64 => r.a64Overlaps s = .ok false
  | _ => r.x86Overlaps s = false

/-- A handle names a register of a class, in the width of a value of `size`
bytes. Only ARM64 tells widths apart. -/
def Names (c : Convention) (floating : Bool) (size : Nat) (r : Register) : Prop :=
  match c.isa, floating with
  | .arm64, false => ∃ x, r.a64View = .ok (if size = 8 then .x x else .w x)
  | .arm64, true => ∃ n, r.a64View = .ok (if size = 8 then .d n else .s n)
  | _, false => ∃ x, r.x86View = .ok (.cpu x)
  | _, true => ∃ n, r.x86View = .ok (.xmm n)

/-- Two locations have no bit in common. -/
def Apart (c : Convention) : Location → Location → Prop
  | .register r _, .register s _ => c.NoOverlap r s
  | .stack o n, .stack o' n' => o.value + n ≤ o'.value ∨ o'.value + n' ≤ o.value
  | _, _ => True

/-- Registers that managed code passes arguments of a class in. -/
def managedRegs (c : Convention) (floating : Bool) : List Register :=
  if floating then c.managedFp else c.managedCore

/-- Registers that native code is passed arguments of a class in. -/
def nativeRegs (c : Convention) (floating : Bool) : List Register :=
  if floating then c.nativeFp else c.nativeCore

/-- On x86-64 a register has one place and one handle. -/
theorem noOverlap_x86 {r s : Register} {q q' : Nat} (hr : r.x86Place = .ok q)
    (hs : s.x86Place = .ok q') (hne : q ≠ q') : r.x86Overlaps s = false := by
  have hdiffer : r ≠ s := by
    rintro rfl
    rw [hr] at hs
    injection hs with heq
    exact hne heq
  simp [Register.x86Overlaps, hdiffer]

/-- On ARM64 the handles of a register share its place. -/
theorem noOverlap_a64 {r s : Register} {q q' : Nat} (hr : r.a64Place = .ok q)
    (hs : s.a64Place = .ok q') (hne : q ≠ q') : r.a64Overlaps s = .ok false := by
  obtain ⟨v, hv, hr⟩ := bind_eq_ok hr
  obtain ⟨v', hv', hs⟩ := bind_eq_ok hs
  have hcore : ∀ {a b : A64.Reg}, a.index.val ≠ b.index.val → (a == b) = false := by
    intro a b h
    rw [beq_eq_false_iff_ne]
    rintro rfl
    exact h rfl
  have hfp : ∀ {a b : Fin 32}, 32 + a.val ≠ 32 + b.val → (a == b) = false := by
    intro a b h
    rw [beq_eq_false_iff_ne]
    rintro rfl
    exact h rfl
  simp only [Register.a64Overlaps, hv, hv', bind, Except.bind]
  cases v <;> cases v' <;> cases hr <;> cases hs <;>
    first
    | rfl
    | exact congrArg Except.ok (hcore hne)
    | exact congrArg Except.ok (hfp hne)

section isa

variable {isa : Isa} {c : Convention} (hc : Convention.ofIsa? isa = some c)

include hc

/-- Registers of different places do not overlap. -/
theorem noOverlap_of_place {sp : Nat} {r s : Register} {q q' : Nat}
    (hr : (c.machine sp).model.place r = .ok q) (hs : (c.machine sp).model.place s = .ok q')
    (hne : q ≠ q') : c.NoOverlap r s := by
  unfold Convention.ofIsa? at hc
  split at hc
  · cases hc
    exact noOverlap_x86 hr hs hne
  · cases hc
    exact noOverlap_a64 hr hs hne
  · cases hc

/-- The handles handed out for native arguments name registers of their
class in the width asked for. -/
theorem names_sized {floating : Bool} {size : Nat} (hsize : size = 4 ∨ size = 8) {r : Register}
    (hr : r ∈ c.nativeRegs floating) : c.Names floating size (c.sized r size) := by
  unfold Convention.ofIsa? at hc
  split at hc
  · cases hc
    cases floating with
    | false =>
        simp only [nativeRegs, x86_64, List.map_cons, List.map_nil, List.mem_cons, List.not_mem_nil,
          or_false, Bool.false_eq_true, if_false] at hr
        rcases hr with rfl | rfl | rfl | rfl | rfl | rfl <;> exact ⟨_, rfl⟩
    | true =>
        simp only [nativeRegs, x86_64, List.map_cons, List.map_nil, List.mem_cons, List.not_mem_nil,
          or_false, if_true] at hr
        rcases hr with rfl | rfl | rfl | rfl | rfl | rfl | rfl | rfl <;> exact ⟨_, rfl⟩
  · cases hc
    cases floating with
    | false =>
        simp only [nativeRegs, arm64, List.map_cons, List.map_nil, List.mem_cons, List.not_mem_nil,
          or_false, Bool.false_eq_true, if_false] at hr
        rcases hr with rfl | rfl | rfl | rfl | rfl | rfl | rfl | rfl <;>
          rcases hsize with rfl | rfl <;> exact ⟨_, rfl⟩
    | true =>
        simp only [nativeRegs, arm64, List.map_cons, List.map_nil, List.mem_cons, List.not_mem_nil,
          or_false, if_true] at hr
        rcases hr with rfl | rfl | rfl | rfl | rfl | rfl | rfl | rfl <;>
          rcases hsize with rfl | rfl <;> exact ⟨_, rfl⟩
  · cases hc

theorem names_hidden : c.Names false 8 c.hidden := by
  unfold Convention.ofIsa? at hc
  split at hc
  · cases hc
    exact ⟨_, rfl⟩
  · cases hc
    exact ⟨_, rfl⟩
  · cases hc

end isa

-- =============================================================== places

/-- Locations of values of types `ts`, one after the other: each has the
size of its type, is in a register that is named in that size as long as
its class has registers left, and shares no bit with another. `regs` are
the registers of a class. -/
structure Places (c : Convention) (size : ValueType → Nat) (regs : Bool → List Register)
    (ts : List ValueType) (ls : List Location) : Prop where
  length : ls.length = ts.length
  place : ∀ (i : Nat) (t : ValueType) (l : Location), ts[i]? = some t → ls[i]? = some l →
    if (ts.take i).countP (·.isFloating = t.isFloating) < (regs t.isFloating).length then
      ∃ r, l = .register r (size t) ∧ c.Names t.isFloating (size t) r
    else ∃ offset, l = .stack offset (size t)
  apart : ls.Pairwise c.Apart

/-- What the seats before have taken: one register for each argument of the
class, while there are any. -/
theorem seats_taken (c : Convention) (lead : Nat) (ts : List ValueType) :
    ∀ (index : Nat) (k : Taken) (i : Nat) (s : Seat), (c.seats lead index k ts)[i]? = some s →
      s.core = k.core + (ts.take i).countP (·.isFloating = false)
        ∧ s.fp = k.fp + (ts.take i).countP (·.isFloating = true) := by
  induction ts with
  | nil =>
      intro index k i s hs
      cases hs
  | cons t ts ih =>
      intro index k i s hs
      cases i with
      | zero =>
          cases hs
          exact ⟨rfl, rfl⟩
      | succ i =>
          obtain ⟨hcore, hfp⟩ := ih (index + 1) _ i s hs
          rw [List.take_succ_cons, hcore, hfp]
          simp only [Seat.after, List.countP_cons]
          cases t.isFloating with
          | false => simp [Nat.add_assoc, Nat.add_comm 1]
          | true => simp [Nat.add_assoc, Nat.add_comm 1]

/-- How many arguments of its class came before an argument. -/
def Seat.taken (s : Seat) : Nat := if s.type.isFloating then s.fp else s.core

theorem seat_taken {c : Convention} {ts : List ValueType} {lead i : Nat} {s : Seat}
    (hs : (c.seats lead 0 {} ts)[i]? = some s) :
    s.taken = (ts.take i).countP (·.isFloating = s.type.isFloating) := by
  obtain ⟨hcore, hfp⟩ := seats_taken c lead ts 0 {} i s hs
  unfold Seat.taken
  cases s.type.isFloating with
  | true => exact hfp.trans (Nat.zero_add _)
  | false => exact hcore.trans (Nat.zero_add _)

/-- The location of a seat, from the registers and slots of either side. -/
def Seat.placed (c : Convention) (size : ValueType → Nat) (regs : Bool → List Register)
    (slot : Seat → FrameOffset) (s : Seat) : Location :=
  match (regs s.type.isFloating)[s.taken]? with
  | some r => .register (c.sized r (size s.type)) (size s.type)
  | none => .stack (slot s) (size s.type)

/-- With nothing before the arguments, native locations are of this form. -/
theorem Seat.native_eq (c : Convention) (s : Seat) :
    s.native c 0 = s.placed c nativeSize c.nativeRegs fun s => ⟨slotSize * s.stack⟩ := by
  unfold Seat.native Seat.placed Seat.nativeReg nativeRegs Seat.taken
  cases s.type.isFloating with
  | true => rfl
  | false => rfl

theorem Seat.managed_eq (c : Convention) (area : Nat) (s : Seat) :
    (s.managed c area).location = s.placed c managedSize c.managedRegs (·.home area) := by
  unfold Seat.managed Seat.placed Seat.managedReg managedRegs Seat.taken
  cases s.type.isFloating with
  | true => rfl
  | false => rfl

section placed

variable {c : Convention} {size : ValueType → Nat} {regs : Bool → List Register}
  {slot : Seat → FrameOffset} {lead : Nat}
  (hregs : ∀ s : Seat, (regs s.type.isFloating)[s.taken]? = s.nativeReg c lead)

include hregs

theorem Seat.placed_register {s : Seat} {r : Register} {n : Nat}
    (hs : s.placed c size regs slot = .register r n) :
    ∃ reg, s.nativeReg c lead = some reg ∧ r = c.sized reg (size s.type) ∧ n = size s.type := by
  unfold Seat.placed at hs
  rw [hregs] at hs
  cases hreg : s.nativeReg c lead with
  | none =>
      rw [hreg] at hs
      cases hs
  | some reg =>
      rw [hreg] at hs
      injection hs with hr hn
      exact ⟨reg, rfl, hr.symm, hn.symm⟩

theorem Seat.placed_stack {s : Seat} {offset : FrameOffset} {n : Nat}
    (hs : s.placed c size regs slot = .stack offset n) :
    s.nativeReg c lead = none ∧ offset = slot s ∧ n = size s.type := by
  unfold Seat.placed at hs
  rw [hregs] at hs
  cases hreg : s.nativeReg c lead with
  | some reg =>
      rw [hreg] at hs
      cases hs
  | none =>
      rw [hreg] at hs
      injection hs with ho hn
      exact ⟨rfl, ho.symm, hn.symm⟩

variable {isa : Isa} (hc : Convention.ofIsa? isa = some c) {sp : Nat} {cores fps : List Nat}
  {hid : Nat} (h : c.Regular (c.machine sp) cores fps hid) (hsize : ∀ t, size t = 4 ∨ size t = 8)
  {lead' : Nat}

include hc h hsize

/-- Seats that come one before the other have locations that share no bit,
if their slots do not. -/
theorem Seat.placed_apart {s s' : Seat} (hbefore : s.Before c lead' s')
    (hslot : s.nativeReg c lead = none → (slot s).value + 8 ≤ (slot s').value) :
    c.Apart (s.placed c size regs slot) (s'.placed c size regs slot) := by
  cases hl : s.placed c size regs slot with
  | register r n =>
      cases hl' : s'.placed c size regs slot with
      | register r' n' =>
          obtain ⟨reg, hreg, rfl, -⟩ := Seat.placed_register hregs hl
          obtain ⟨reg', hreg', rfl, -⟩ := Seat.placed_register hregs hl'
          obtain ⟨q, hq, hr⟩ := h.place_nativeReg hreg (hsize s.type)
          obtain ⟨q', hq', hr'⟩ := h.place_nativeReg hreg' (hsize s'.type)
          refine noOverlap_of_place hc hr hr' ?_
          rintro rfl
          exact h.place_ne hbefore hq hq'
      | stack o n' => trivial
  | stack o n =>
      cases hl' : s'.placed c size regs slot with
      | register r' n' => trivial
      | stack o' n' =>
          obtain ⟨hnone, rfl, rfl⟩ := Seat.placed_stack hregs hl
          obtain ⟨-, rfl, rfl⟩ := Seat.placed_stack hregs hl'
          have hroom := hslot hnone
          have hwidth := hsize s.type
          exact .inl (by omega)

/-- The seats of a list of types have places. -/
theorem places_of_seats {ts : List ValueType}
    (hslot : ∀ s s' : Seat, s.Before c lead' s' → s.nativeReg c lead = none →
      (slot s).value + 8 ≤ (slot s').value) :
    c.Places size regs ts ((c.seats lead' 0 {} ts).map (·.placed c size regs slot)) where
  length := by rw [List.length_map, seats_length]
  place i t l ht hl := by
    rw [List.getElem?_map] at hl
    obtain ⟨s, hs, rfl⟩ := Option.map_eq_some_iff.mp hl
    obtain ⟨-, htype⟩ := seats_getElem? c lead' ts 0 {} i s hs
    rw [ht] at htype
    cases htype
    rw [← seat_taken hs]
    split
    · next hlt =>
        have hreg := List.getElem?_eq_getElem hlt
        refine ⟨c.sized _ (size s.type), by rw [Seat.placed, hreg], names_sized hc (hsize _) ?_⟩
        rw [hregs] at hreg
        unfold Seat.nativeReg at hreg
        unfold nativeRegs
        split at hreg
        · next hfloat =>
            rw [if_pos hfloat]
            exact List.mem_of_getElem? hreg
        · next hfloat =>
            rw [if_neg hfloat]
            exact List.mem_of_getElem? hreg
    · next hge =>
        have hreg := List.getElem?_eq_none_iff.mpr (Nat.le_of_not_lt hge)
        exact ⟨slot s, by rw [Seat.placed, hreg]⟩
  apart := List.pairwise_map.mpr ((seats_pairwise c lead' ts 0 {}).1.imp fun hbefore =>
    Seat.placed_apart hregs hc h hsize hbefore (hslot _ _ hbefore))

end placed

-- =========================================================== both sides

/-- Arguments as managed code passes them, with `area` before the home
slots. -/
structure ManagedPlaces (c : Convention) (area : Nat) (ts : List ValueType)
    (args : List ManagedArg) : Prop where
  types : args.map (·.type) = ts
  /-- Home slots follow the slot of the method, in argument order. -/
  homes : args.map (·.home.value) = (List.range ts.length).map fun i => area + slotSize * (i + 1)
  places : c.Places managedSize c.managedRegs ts (args.map (·.location))
  /-- What is in no register is in its own home slot. -/
  atHome : ∀ a ∈ args, ∀ offset n, a.location = .stack offset n → offset = a.home
  method : ∀ a ∈ args, c.Apart (.register c.method 8) a.location

/-- Arguments as native code expects them; `ts` counts environment and class
as long integers. -/
structure NativePlaces (c : Convention) (ts : List ValueType) (isStatic : Bool) (kind : NativeKind)
    (n : NativeArgs) : Prop where
  env : n.env.isSome ↔ kind ≠ .critical
  class_ : n.class_.isSome ↔ isStatic = true ∧ kind ≠ .critical
  places : c.Places nativeSize c.nativeRegs ts n.entries
  hidden : n.hidden.isSome ↔ kind = .critical
  hiddenApart : ∀ l ∈ n.hidden, l = .register c.hidden 8 ∧ c.Names false 8 c.hidden
    ∧ ∀ e ∈ n.entries, c.Apart e l
  /-- Slots are used without gaps, and the area is the smallest aligned one
  that holds them. -/
  stack : ∃ m, n.entries.filterMap Location.offset? = (List.range m).map (slotSize * ·)
    ∧ 16 ∣ n.outArgsSize ∧ slotSize * m ≤ n.outArgsSize
    ∧ ∀ size, 16 ∣ size → slotSize * m ≤ size → n.outArgsSize ≤ size

/-- Stack slots are used one after the other. -/
theorem nativeFrom_offsets (c : Convention) (ts : List ValueType) : ∀ k : Taken,
    Yields (nativeFrom c k ts) fun p => ∃ m, p.2.stack = k.stack + m
      ∧ p.1.filterMap Location.offset? = (List.range' k.stack m).map (slotSize * ·) := by
  induction ts with
  | nil => exact fun k => yields_pure ⟨0, rfl, rfl⟩
  | cons t ts ih =>
      intro k
      refine yields_bind fun next hnext => yields_bind fun rest hrest => yields_pure ?_
      obtain ⟨m, hstack, hoffsets⟩ := ih next.2 rest hrest
      have hturn : next.1.offset? = none ∧ next.2.stack = k.stack
          ∨ next.1.offset? = some (slotSize * k.stack) ∧ next.2.stack = k.stack + 1 := by
        let s : Seat := ⟨t, 0, k.core, k.fp, k.stack⟩
        obtain rfl := nativeNext_eq c (s := s) (Nat.add_zero k.core).symm rfl rfl next hnext
        simp only [Seat.native, Seat.after]
        cases s.nativeReg c 0 with
        | some reg => exact .inl ⟨rfl, rfl⟩
        | none => exact .inr ⟨rfl, rfl⟩
      rcases hturn with ⟨hnone, hsame⟩ | ⟨hsome, hmore⟩
      · refine ⟨m, hsame ▸ hstack, ?_⟩
        rw [List.filterMap_cons_none hnone, hoffsets, hsame]
      · refine ⟨m + 1, by rw [hstack, hmore]; omega, ?_⟩
        rw [List.filterMap_cons_some hsome, hoffsets, hmore, List.range'_succ, List.map_cons]

/-- Seats are in the order of their types and numbers. -/
theorem seats_map (c : Convention) (lead : Nat) (ts : List ValueType) :
    ∀ (index : Nat) (k : Taken), (c.seats lead index k ts).map (·.type) = ts
      ∧ (c.seats lead index k ts).map (·.index) = List.range' index ts.length := by
  induction ts with
  | nil => exact fun _ _ => ⟨rfl, rfl⟩
  | cons t ts ih =>
      intro index k
      obtain ⟨htypes, hindices⟩ := ih (index + 1) (Seat.after c lead ⟨t, index, k.core, k.fp, k.stack⟩)
      rw [seats, List.map_cons, List.map_cons, htypes, hindices]
      exact ⟨rfl, rfl⟩

section sides

variable {isa : Isa} {c : Convention} (hc : Convention.ofIsa? isa = some c)

include hc

theorem managedArguments_places {s : Shorty} {isStatic : Bool} {area : Nat} {args : List ManagedArg}
    (hargs : c.managedArguments s isStatic area = .ok args) :
    c.ManagedPlaces area (s.arguments isStatic) args := by
  obtain ⟨cores, fps, hid, h⟩ := Stub.Plan.regular_of_isa hc 0
  obtain rfl := managedFrom_eq c 0 area _ 0 {} {} args rfl rfl hargs
  obtain ⟨htypes, hindices⟩ := seats_map c 0 (s.arguments isStatic) 0 {}
  refine ⟨?_, ?_, ?_, fun a ha offset n hl => ?_, fun a ha => ?_⟩
  · rw [List.map_map]
    exact htypes
  · rw [List.range_eq_range', ← hindices, List.map_map, List.map_map]
    rfl
  · have hregs : ∀ s : Seat, (c.managedRegs s.type.isFloating)[s.taken]? = s.nativeReg c 1 := by
      intro s
      rw [← h.managedReg_eq]
      unfold managedRegs Seat.taken Seat.managedReg
      cases s.type.isFloating <;> rfl
    have hplaced : (·.location) ∘ (·.managed c area)
        = fun s : Seat => s.placed c managedSize c.managedRegs (·.home area) :=
      funext fun s => s.managed_eq c area
    rw [List.map_map, hplaced]
    refine places_of_seats hregs hc h managedSize_cases fun s s' hbefore _ => ?_
    have := hbefore.index
    simp only [Seat.home, slotSize]
    omega
  · obtain ⟨s, -, rfl⟩ := List.mem_map.mp ha
    exact (Seat.managed_stack hl).1
  · obtain ⟨s, -, rfl⟩ := List.mem_map.mp ha
    cases hl : (s.managed c area).location with
    | stack offset n => trivial
    | register r n =>
        obtain ⟨reg, hreg, rfl⟩ := Seat.managed_register hl
        rw [h.managedReg_eq] at hreg
        obtain ⟨q, hq, hr⟩ := h.place_nativeReg hreg (managedSize_cases s.type)
        obtain ⟨q₀, hq₀⟩ := h.head
        refine noOverlap_of_place hc (h.method q₀ hq₀) hr ?_
        rintro rfl
        have := h.place_core hq₀ hq
        omega

theorem nativeArguments_places {s : Shorty} {isStatic : Bool} {kind : NativeKind} {n : NativeArgs}
    (hn : c.nativeArguments s isStatic kind = .ok n) :
    c.NativePlaces (nativeTypes s isStatic kind) isStatic kind n := by
  obtain ⟨cores, fps, hid, h⟩ := Stub.Plan.regular_of_isa hc 0
  obtain ⟨r₀, r₁, -, -, hr₀, hr₁, -⟩ := h.leading
  have hlayout := nativeArguments_layout hr₀ hr₁ s isStatic kind n hn
  obtain ⟨k, hfrom, hsize⟩ := nativeArguments_from c s isStatic kind n hn
  have hentries : n.entries
      = (c.seats 0 0 {} (nativeTypes s isStatic kind)).map (·.native c 0) :=
    (nativeFrom_eq c 0 _ 0 {} {} rfl rfl rfl _ hfrom).1
  refine ⟨?_, ?_, ?_, ?_, fun l hl => ⟨?_, names_hidden hc, fun e he => ?_⟩, ?_⟩
  · rw [hlayout.env]
    split <;> simp [*]
  · rw [hlayout.class_]
    split <;> simp_all
  · have hregs : ∀ s : Seat, (c.nativeRegs s.type.isFloating)[s.taken]? = s.nativeReg c 0 := by
      intro s
      unfold nativeRegs Seat.taken Seat.nativeReg
      cases s.type.isFloating <;> rfl
    rw [hentries, funext fun s : Seat => s.native_eq c]
    refine places_of_seats hregs hc h nativeSize_cases fun s s' hbefore hnone => ?_
    have := hbefore.stack hnone
    simp only [slotSize]
    omega
  · rw [hlayout.hidden]
    split <;> simp [*]
  · rw [hlayout.hidden] at hl
    split at hl
    · cases hl
      rfl
    · cases hl
  · rw [hlayout.hidden] at hl
    split at hl
    · cases hl
      rw [hentries] at he
      obtain ⟨s', -, rfl⟩ := List.mem_map.mp he
      cases hl : s'.native c 0 with
      | stack offset n => trivial
      | register r n =>
          obtain ⟨reg, hreg, rfl⟩ := Seat.native_register hl
          obtain ⟨q, hq, hr⟩ := h.place_nativeReg hreg (nativeSize_cases s'.type)
          refine noOverlap_of_place hc hr h.hidden ?_
          rintro rfl
          exact (List.nodup_cons.mp h.nodup).1 (Seat.place_mem hq)
    · cases hl
  · obtain ⟨m, hstack, hoffsets⟩ := nativeFrom_offsets c _ {} _ hfrom
    refine ⟨m, ?_, ?_⟩
    · rw [hoffsets, List.range_eq_range']
    · rw [hsize, hstack, Nat.zero_add]
      exact roundUp_least _ (by decide)

end sides

/-- Argument locations never collide, whatever the signature. On the
managed side no argument shares bits with another or with the method, and
one that is in no register is in its own home slot. On the native side
environment, class, arguments and hidden argument share no bits, an
argument is on the stack exactly if the registers of its class are gone,
and slots are used without gaps. The two sides go through the arguments in
the same order. -/
theorem arguments_placed {isa : Isa} {c : Convention} (hc : Convention.ofIsa? isa = some c)
    (s : Shorty) (isStatic : Bool) (kind : NativeKind) (area : Nat)
    (hroom : area + slotSize * (s.arguments isStatic).length < wordLimit) :
    let types := nativeTypes s isStatic kind
    ∃ managed layout, c.managedArguments s isStatic area = .ok managed
      ∧ c.nativeArguments s isStatic kind = .ok layout
      ∧ c.ManagedPlaces area (s.arguments isStatic) managed
      ∧ c.NativePlaces types isStatic kind layout
      ∧ layout.args.length = managed.length
      ∧ ∀ k a l, managed[k]? = some a → layout.args[k]? = some l →
        types[lead isStatic kind + k]? = some a.type
          ∧ layout.entries[lead isStatic kind + k]? = some l := by
  intro types
  have hreal := c.real_of_isa hc
  obtain ⟨managed, hmanaged⟩ : ∃ managed, c.managedArguments s isStatic area = .ok managed :=
    hreal.managedFrom_ok _ 0 {} (by rw [Nat.zero_add]; exact hroom)
  obtain ⟨layout, hlayout⟩ := hreal.nativeArguments_ok s isStatic kind
  have hplaces := managedArguments_places hc hmanaged
  have hnative := nativeArguments_places hc hlayout
  have hfirst : (layout.env.toList ++ layout.class_.toList).length = lead isStatic kind := by
    rw [List.length_append, Option.length_toList, Option.length_toList, lead]
    simp only [hnative.env, hnative.class_]
    cases kind <;> cases isStatic <;> rfl
  refine ⟨managed, layout, hmanaged, hlayout, hplaces, hnative, ?_, fun k a l ha hl => ⟨?_, ?_⟩⟩
  · have hlength := hnative.places.length
    rw [NativeArgs.entries, List.length_append, hfirst, nativeTypes, List.length_append,
      List.length_replicate] at hlength
    have htypes := congrArg List.length hplaces.types
    rw [List.length_map] at htypes
    rw [htypes]
    exact Nat.add_left_cancel hlength
  · have htype : (s.arguments isStatic)[k]? = some a.type := by
      rw [← hplaces.types, List.getElem?_map, ha]
      rfl
    rw [← htype]
    simp only [types, nativeTypes]
    rw [List.getElem?_append_right (by rw [List.length_replicate]; omega), List.length_replicate,
      Nat.add_sub_cancel_left]
  · rw [NativeArgs.entries, ← hfirst, List.getElem?_append_right (Nat.le_add_right _ _),
      Nat.add_sub_cancel_left]
    exact hl

/-- A static method that runs out of the registers of both classes. -/
theorem arguments_placed_overflowing :
    let s : Shorty := ⟨none, List.replicate 9 .double ++ List.replicate 9 .int⟩
    176 + slotSize * (s.arguments true).length < wordLimit
      ∧ ∃ managed layout, arm64.managedArguments s true 176 = .ok managed
        ∧ arm64.nativeArguments s true .normal = .ok layout
        ∧ arm64.ManagedPlaces 176 (s.arguments true) managed
        ∧ arm64.NativePlaces (nativeTypes s true .normal) true .normal layout := by
  intro s
  have hroom : 176 + slotSize * (s.arguments true).length < wordLimit := by decide
  obtain ⟨managed, layout, hmanaged, hlayout, hplaces, hnative, -⟩ := arguments_placed
    (show Convention.ofIsa? .arm64 = some arm64 from rfl) s true .normal 176 hroom
  exact ⟨hroom, managed, layout, hmanaged, hlayout, hplaces, hnative⟩

-- the ninth floating-point number, and the integers that find the class and
-- the environment before them
example : (arm64.nativeArguments ⟨none, List.replicate 9 .double ++ List.replicate 9 .int⟩ true
    .normal).map (·.entries.filterMap Location.offset?) = .ok [0, 8, 16, 24] := by decide

end Convention

end Crossing
