import Crossing.Proofs.Frame.Parking
import Crossing.Proofs.Stub.Totality

/-
Slow paths call the runtime, which keeps no argument register. Arguments
are parked in their homes meanwhile, in the caller's area, and a result in
its slot of the stub's frame; the method has been in its slot from the
start. All slots are counted from a stack pointer that is below the outgoing
arguments: first these, then the frame with the slots of method and result
and what it saves, then the caller's area. For no signature do the pieces
run into each other (`Made.parked_elsewhere`, `Made.result_fits`), and so
what was parked comes back and nothing else is lost (`slowPaths_preserve`).
-/
namespace Crossing

open Glue

namespace Convention

-- =========================================================== conventions

/-- A target can park the registers of a convention, in frames that have
room for it. -/
structure Parks (c : Convention) (t : Target) : Prop where
  core : ∀ r ∈ c.nativeCore, ∀ n, n = 4 ∨ n = 8 → t.Storable (c.sized r n)
  fp : ∀ r ∈ c.nativeFp, ∀ n, n = 4 ∨ n = 8 → t.Storable (c.sized r n)
  method : t.Storable c.method
  result : ∀ type, t.Storable (c.resultRegister (some type))
  /-- Method, result and saved registers have their places in a frame. -/
  frame : 16 + t.reserved .none c.calleeSaves ≤ c.frameSize
  small : c.frameSize ≤ 2 ^ 16

theorem parks_x86_64 : x86_64.Parks .x86_64 where
  core := List.forall_mem_map.mpr fun q hq _ _ =>
    .inl ⟨q, fun heq => absurd (heq ▸ hq) (by decide), Register.x86View_handle q⟩
  fp := List.forall_mem_map.mpr fun n _ _ _ => .inr ⟨n, Register.x86View_xmmHandle n⟩
  method := .inl ⟨_, by decide, rfl⟩
  result type := by
    cases type with
    | float | double => exact .inr ⟨_, rfl⟩
    | _ => exact .inl ⟨_, by decide, rfl⟩
  frame := by decide
  small := by decide

theorem parks_arm64 (lse : Bool) : arm64.Parks (.arm64 lse) := by
  have harm : arm64.isa = .arm64 := rfl
  refine ⟨List.forall_mem_map.mpr fun n hn size _ => ?_,
    List.forall_mem_map.mpr fun n _ size _ => ?_, .inl ⟨_, by decide, .inl rfl⟩, fun type => ?_,
    by cases lse <;> decide, by decide⟩
  · have hsp : (⟨n⟩ : A64.Reg) ≠ .sp := fun heq =>
      absurd (A64.Reg.mk.inj heq ▸ hn) (by decide)
    simp only [sized, harm, Register.a64View_xHandle]
    split
    · exact .inl ⟨⟨n⟩, hsp, .inl (Register.a64View_xHandle ⟨n⟩)⟩
    · exact .inl ⟨⟨n⟩, hsp, .inr (Register.a64View_wHandle ⟨n⟩)⟩
  · simp only [sized, harm, Register.a64View_dHandle]
    split
    · exact .inr ⟨n, .inl (Register.a64View_dHandle n)⟩
    · exact .inr ⟨n, .inr (Register.a64View_sHandle n)⟩
  · cases type with
    | float => exact .inr ⟨_, .inr rfl⟩
    | double => exact .inr ⟨_, .inl rfl⟩
    | long | reference => exact .inl ⟨_, by decide, .inl rfl⟩
    | _ => exact .inl ⟨_, by decide, .inr rfl⟩

theorem Parks.nativeReg {c : Convention} {t : Target} (h : c.Parks t) {s : Seat} {lead : Nat}
    {r : Register} (hr : s.nativeReg c lead = some r) {n : Nat} (hn : n = 4 ∨ n = 8) :
    t.Storable (c.sized r n) := by
  unfold Seat.nativeReg at hr
  split at hr
  · exact h.fp r (List.mem_of_getElem? hr) n hn
  · exact h.core r (List.mem_of_getElem? hr) n hn

/-- Registers are told apart by their places. -/
theorem Suits.differ {c : Convention} {t : Target} (h : c.Suits t) {r r' : Register} {q q' : Nat}
    (hq : (c.machine 0).model.place r = .ok q) (hq' : (c.machine 0).model.place r' = .ok q')
    (hne : q ≠ q') : t.backend.Differ r r' := by
  have hregisters : t.backend.registers = (c.machine 0).model := by
    rw [h.model 0]
    cases t <;> rfl
  exact ⟨q, q', hregisters ▸ hq, hregisters ▸ hq', hne⟩

/-- The conventions of an instruction set and its target belong together. -/
theorem suits_of_isa {isa : Isa} {features : Features} {c : Convention} {t : Target}
    (hc : Convention.ofIsa? isa = some c) (ht : Target.ofIsa isa features = .ok t) :
    c.Suits t ∧ c.Parks t := by
  unfold Convention.ofIsa? at hc
  split at hc
  · cases hc
    cases ht
    exact ⟨suits_x86_64, parks_x86_64⟩
  · cases hc
    cases ht
    exact ⟨suits_arm64 _, parks_arm64 _⟩
  · cases hc

-- ============================================================== homes

/-- A home slot is within the address space. -/
theorem managedFrom_homes (c : Convention) (area : Nat) (ts : List ValueType) :
    ∀ (index : Nat) (k : Taken), Yields (c.managedFrom area index k ts) fun args =>
      ∀ a ∈ args, a.home.value < wordLimit := by
  induction ts with
  | nil => exact fun _ _ => yields_pure fun a ha => absurd ha List.not_mem_nil
  | cons t ts ih =>
      intro index k
      refine yields_bind fun home hhome => yields_bind fun location _ =>
        yields_bind fun rest hrest => yields_pure ?_
      refine List.forall_mem_cons.mpr ⟨?_, ih _ _ rest hrest⟩
      unfold addWord at hhome
      split at hhome
      · next hlt =>
          cases hhome
          exact hlt
      · cases hhome

/-- An argument that is in a register, parked in its home. -/
def Seat.parked? (c : Convention) (area : Nat) (s : Seat) : Option Parked :=
  (s.managedReg c).map fun r =>
    ⟨c.sized r s.type.managedSize, s.home area, s.type.managedSize⟩

end Convention

namespace Stub.Plan

open Convention

variable (p : Plan)

-- ======================================================= what is parked

/-- The arguments that are in registers. -/
def parked : List Parked :=
  (inRegisters p.managed).map fun (reg, home, size) => ⟨reg, home, size⟩

/-- The method is loaded with them. -/
def parkedMethod : Parked := ⟨p.abi.method, p.methodSlot, 8⟩

/-- The result, if there is one. -/
def parkedResult : List Parked :=
  if p.resultRegister.isSome then
    [⟨p.resultRegister, p.resultSlot, p.signature.nativeResultSize⟩]
  else []

theorem spillManaged_eq : p.spillManaged = p.parked.map Parked.store := by
  rw [spillManaged, parked, List.map_map]
  rfl

theorem reloadManaged_eq :
    p.reloadManaged = (p.parked ++ [p.parkedMethod]).map Parked.load := by
  rw [reloadManaged, parked, List.map_append, List.map_map]
  rfl

theorem saveResult_eq : p.saveResult = p.parkedResult.map Parked.store := by
  unfold saveResult parkedResult
  split <;> rfl

theorem restoreResult_eq : p.restoreResult = p.parkedResult.map Parked.load := by
  unfold restoreResult parkedResult
  split <;> rfl

/-- `Q` holds of all the bytes that a store to the slot `own` must not reach,
piece by piece: the outgoing arguments, the method, what the frame keeps for
its caller (with the return address), and homes of other arguments. -/
structure Elsewhere (t : Target) (own : FrameOffset) (Q : Nat → Nat → Prop) : Prop where
  outgoing : Q 0 p.native.outArgsSize
  method : Q p.methodSlot.value (p.methodSlot.value + 8)
  saves : Q (p.area - t.reserved .none p.abi.calleeSaves) p.area
  homes : ∀ a ∈ p.managed, a.home ≠ own → Q a.home.value (a.home.value + 8)

section Made

variable {p} {cores fps : List Nat} {hid : Nat} {r₀ r₁ : Register}
  (h : p.Made cores fps hid r₀ r₁)

include h

theorem Made.mem_parkedResult {k : Parked} (hk : k ∈ p.parkedResult) :
    ∃ type, p.signature.result = some type
      ∧ k = ⟨p.abi.resultRegister (some type), p.resultSlot, type.nativeSize⟩ := by
  rw [parkedResult, h.result] at hk
  unfold Shorty.nativeResultSize at hk
  cases hresult : p.signature.result with
  | none =>
      rw [hresult] at hk
      exact absurd hk List.not_mem_nil
  | some type =>
      rw [hresult] at hk
      split at hk
      · exact ⟨type, rfl, List.mem_singleton.mp hk⟩
      · exact absurd hk List.not_mem_nil

theorem Made.parked_eq : p.parked = p.seats.filterMap (·.parked? p.abi p.area) := by
  rw [parked, h.managed, inRegisters, List.filterMap_map, List.map_filterMap]
  congr 1
  funext s
  simp only [Function.comp_apply, Seat.managed, Seat.parked?]
  cases s.managedReg p.abi <;> rfl

theorem Made.mem_parked {k : Parked} (hk : k ∈ p.parked) : ∃ s ∈ p.seats, ∃ r,
    s.nativeReg p.abi 1 = some r
      ∧ k = ⟨p.abi.sized r s.type.managedSize, s.home p.area, s.type.managedSize⟩ := by
  rw [h.parked_eq] at hk
  obtain ⟨s, hs, hparked⟩ := List.mem_filterMap.mp hk
  obtain ⟨r, hr, rfl⟩ := Option.map_eq_some_iff.mp hparked
  exact ⟨s, hs, r, h.regular.managedReg_eq s ▸ hr, rfl⟩

end Made

/-- Every slot of a plan is within the address space. -/
structure Roomy (p : Plan) : Prop where
  homes : ∀ a ∈ p.managed, a.home.value + 8 ≤ 2 ^ 64
  area : p.area ≤ 2 ^ 64

variable {p}

theorem make_homes {abi : Convention} {s : Shorty} {options : StubOptions}
    (hp : make abi s options = .ok p) : ∀ a ∈ p.managed, a.home.value < wordLimit :=
  managedFrom_homes _ _ _ 0 {} p.managed (laidOut_of_make p hp).managed

section Made

variable {cores fps : List Nat} {hid : Nat} {r₀ r₁ : Register} (h : p.Made cores fps hid r₀ r₁)
  {t : Target} (hsuits : p.abi.Suits t)

include h hsuits

theorem Made.parked_elsewhere {k : Parked} (hk : k ∈ p.parked) :
    p.Elsewhere t k.slot k.Beside := by
  have hframe := hsuits.frame
  have harea : p.area = p.native.outArgsSize + p.abi.frameSize := rfl
  obtain ⟨s, hs, r, -, rfl⟩ := h.mem_parked hk
  have hhome : ∀ s : Seat, (s.home p.area).value = p.area + 8 * (s.index + 1) := fun _ => rfl
  have hsize := managedSize_cases s.type
  refine ⟨.inl ?_, .inl ?_, .inl ?_, fun a ha hother => ?_⟩
  · simp only [hhome]
    omega
  · simp only [hhome, methodSlot]
    omega
  · simp only [hhome]
    omega
  · rw [h.managed] at ha
    obtain ⟨s', -, rfl⟩ := List.mem_map.mp ha
    have hne : s.index ≠ s'.index := fun heq => hother (by simp only [Seat.managed, Seat.home, heq])
    simp only [Parked.Beside, Seat.managed, hhome]
    omega

/-- Arguments are in different registers and have different homes, and the
method is apart from all of them. -/
theorem Made.parked_apart : (p.parked ++ [p.parkedMethod]).Pairwise (Parked.Apart t) := by
  have hframe := hsuits.frame
  have hhome : ∀ s : Seat, (s.home p.area).value = p.area + 8 * (s.index + 1) := fun _ => rfl
  have hseats := (seats_pairwise p.abi (lead p.options.isStatic p.options.kind)
    (p.signature.arguments p.options.isStatic) 0 {}).1
  refine List.pairwise_append.mpr ⟨?_, List.pairwise_singleton _ _, fun k hk k' hk' => ?_⟩
  · rw [h.parked_eq]
    refine List.Pairwise.filterMap _ (fun s s' hbefore k hk k' hk' => ?_) hseats
    obtain ⟨r, hr, rfl⟩ := Option.map_eq_some_iff.mp hk
    obtain ⟨r', hr', rfl⟩ := Option.map_eq_some_iff.mp hk'
    rw [h.regular.managedReg_eq] at hr hr'
    obtain ⟨q, hq, hplace⟩ := h.regular.place_nativeReg hr (managedSize_cases s.type)
    obtain ⟨q', hq', hplace'⟩ := h.regular.place_nativeReg hr' (managedSize_cases s'.type)
    constructor
    · have hindex := hbefore.index
      have hsize := managedSize_cases s.type
      refine .inl ?_
      simp only [hhome]
      omega
    · refine hsuits.differ hplace' hplace ?_
      rintro rfl
      exact h.regular.place_ne hbefore hq hq'
  · obtain ⟨s, -, r, hr, rfl⟩ := h.mem_parked hk
    rw [List.mem_singleton.mp hk']
    obtain ⟨q, hq, hplace⟩ := h.regular.place_nativeReg hr (managedSize_cases s.type)
    obtain ⟨q₀, hq₀⟩ := h.regular.head
    constructor
    · refine .inr ?_
      have harea : p.area = p.native.outArgsSize + p.abi.frameSize := rfl
      simp only [parkedMethod, methodSlot, hhome]
      omega
    · refine hsuits.differ (h.regular.method q₀ hq₀) hplace ?_
      rintro rfl
      have := h.regular.place_core hq₀ hq
      omega

variable (hparks : p.abi.Parks t)

include hparks

theorem Made.roomy {abi : Convention} {s : Shorty} {options : StubOptions}
    (hp : make abi s options = .ok p) : p.Roomy := by
  have hbound := make_homes hp
  have hnative := (laidOut_of_make p hp).native
  have hframe := hsuits.frame
  have hsmall := hparks.small
  have hout := h.native.small
  have haligned : 16 ∣ p.native.outArgsSize := by
    obtain ⟨k, -, hsize⟩ := nativeArguments_from _ _ _ _ p.native hnative
    exact hsize ▸ (roundUp_least _ (by decide)).1
  have hhome : ∀ s ∈ p.seats, p.area + 8 * (s.index + 1) < 2 ^ 64 := fun s hs =>
    hbound (s.managed p.abi p.area) (h.managed ▸ List.mem_map_of_mem hs)
  have harea : p.area = p.native.outArgsSize + p.abi.frameSize := rfl
  refine ⟨fun a ha => ?_, ?_⟩
  · rw [h.managed] at ha
    obtain ⟨s, hs, rfl⟩ := List.mem_map.mp ha
    have := hhome s hs
    show p.area + 8 * (s.index + 1) + 8 ≤ 2 ^ 64
    omega
  · -- without arguments the caller's area begins right above the frame
    cases hseats : p.seats with
    | nil =>
        rw [hseats, List.length_nil] at hout
        omega
    | cons s ss =>
        have := hhome s (hseats ▸ List.mem_cons_self)
        omega

variable (hroomy : p.Roomy)

include hroomy

theorem Made.parked_fits {k : Parked} (hk : k ∈ p.parked ++ [p.parkedMethod]) : k.Fits t := by
  have hframe := hsuits.frame
  have harea := hroomy.area
  rcases List.mem_append.mp hk with hk | hk
  · obtain ⟨s, hs, r, hr, rfl⟩ := h.mem_parked hk
    have hsize := managedSize_cases s.type
    have hhome := hroomy.homes (s.managed p.abi p.area) (h.managed ▸ List.mem_map_of_mem hs)
    refine ⟨hparks.nativeReg hr hsize, hsize, ?_⟩
    simp only [Seat.managed] at hhome ⊢
    omega
  · rw [List.mem_singleton.mp hk]
    refine ⟨hparks.method, .inr rfl, ?_⟩
    simp only [parkedMethod, methodSlot]
    rw [area] at harea
    omega

omit hsuits in
/-- A result comes in one register, and its slot is between the method's
and what the frame saves. -/
theorem Made.result_fits {k : Parked} (hk : k ∈ p.parkedResult) :
    k.Fits t ∧ p.Elsewhere t k.slot k.Beside := by
  have hframe := hparks.frame
  have hbound := hroomy.area
  have harea : p.area = p.native.outArgsSize + p.abi.frameSize := rfl
  obtain ⟨type, htype, rfl⟩ := h.mem_parkedResult hk
  have hsize := nativeSize_cases type
  have hslot : p.resultSlot.value = p.native.outArgsSize + 8 := rfl
  refine ⟨⟨hparks.result type, hsize, ?_⟩, .inl ?_, .inl ?_, .inr ?_, fun a ha _ => .inr ?_⟩
  · simp only [hslot]
    omega
  · simp only [hslot]
    omega
  · simp only [hslot, methodSlot]
    omega
  · simp only [hslot]
    omega
  · rw [h.managed] at ha
    obtain ⟨s, -, rfl⟩ := List.mem_map.mp ha
    have hhome : (s.managed p.abi p.area).home.value = p.area + 8 * (s.index + 1) := rfl
    simp only [hslot, hhome]
    omega

end Made

-- =========================================================== slow paths

theorem Elsewhere.imp {t : Target} {own : FrameOffset} {Q Q' : Nat → Nat → Prop}
    (h : p.Elsewhere t own Q) (hroomy : p.Roomy) (hframe : 8 ≤ p.abi.frameSize)
    (himp : ∀ lo hi, hi ≤ 2 ^ 64 → Q lo hi → Q' lo hi) : p.Elsewhere t own Q' := by
  have harea : p.area = p.native.outArgsSize + p.abi.frameSize := rfl
  have hbound := hroomy.area
  have hslot : p.methodSlot.value = p.native.outArgsSize := rfl
  exact ⟨himp _ _ (by omega) h.outgoing, himp _ _ (by omega) h.method, himp _ _ hbound h.saves,
    fun a ha hne => himp _ _ (hroomy.homes a ha) (h.homes a ha hne)⟩

/-- What slow paths are to the rest of a stub, on a target. The runtime may
do what it likes with registers (but for the stack pointer) and with memory
other than the slots. -/
structure Preserves (p : Plan) (t : Target) : Prop where
  /-- Every argument that is in a register has its low bytes back, and the
  method's register holds what the method's slot holds. -/
  arguments : ∀ s : t.backend.Cpu, t.Does p.spillManaged s fun s₁ =>
    ∀ s₂, t.Returns (p.parked ++ [p.parkedMethod]) s₁ s₂ → t.Does p.reloadManaged s₂ fun s₃ =>
      (∀ reg home size, (reg, home, size) ∈ inRegisters p.managed →
        t.backend.content s₃ reg % 256 ^ size = t.backend.content s reg % 256 ^ size)
      ∧ t.backend.content s₃ p.abi.method = (t.backend.memory s).read
        (t.backend.sp s + UInt64.ofNat p.methodSlot.value) 8
  /-- So has a result. -/
  result : ∀ s : t.backend.Cpu, t.Does p.saveResult s fun s₁ =>
    ∀ s₂, t.Returns p.parkedResult s₁ s₂ → t.Does p.restoreResult s₂ fun s₃ =>
      p.resultRegister.isSome = true →
        t.backend.content s₃ p.resultRegister % 256 ^ p.signature.nativeResultSize
          = t.backend.content s p.resultRegister % 256 ^ p.signature.nativeResultSize
  /-- No store reaches what is not its own. -/
  stores : ∀ op ∈ p.spillManaged ++ p.saveResult, ∃ own r size, op = .store own r size
    ∧ ∀ s : t.backend.Cpu, t.Does [op] s fun s' => p.Elsewhere t own
      ((t.backend.memory s).SameOn (t.backend.memory s') (t.backend.sp s))
  /-- The slow paths that a stub has can be encoded. -/
  argumentsCoded : p.hasClass ∨ p.options.kind = .normal → ∀ next,
    (∃ e, t.code p.spillManaged next = .ok e) ∧ ∃ e, t.code p.reloadManaged next = .ok e
  resultCoded : p.options.kind = .normal ∨ p.options.kind = .fast → ∀ next,
    (∃ e, t.code p.saveResult next = .ok e) ∧ ∃ e, t.code p.restoreResult next = .ok e

/-- What is parked by a store that keeps to its slot. -/
theorem store_elsewhere {t : Target} {k : Parked} (hfits : k.Fits t)
    (h : p.Elsewhere t k.slot k.Beside) (hroomy : p.Roomy) (hframe : 8 ≤ p.abi.frameSize)
    (s : t.backend.Cpu) : t.Does [k.store] s fun s' => p.Elsewhere t k.slot
      ((t.backend.memory s).SameOn (t.backend.memory s') (t.backend.sp s)) := by
  have hparked := Target.park_spec (List.forall_mem_singleton.mpr hfits) s
  refine hparked.mono fun s' ⟨_, _, hmemory⟩ => ?_
  refine h.imp hroomy hframe fun lo hi hhi hbeside => ?_
  rw [hmemory]
  exact Memory.park_sameOn _ _ hhi _ (List.forall_mem_singleton.mpr ⟨hbeside, hfits.2.2⟩)

/-- What is on the slow paths of an assembled stub can be lowered, whichever
handle the register of the class has there. -/
theorem slowPaths_lowered {t : Target} {code : Array UInt8} (hcode : assemble t p = .ok code) :
    ∃ root, ∀ op ∈ p.slowPaths root, ∃ next e, t.backend.lower op next = .ok e := by
  obtain ⟨called, returned, root, a, hcalled, hreturned, ha⟩ := assemble_stages code hcode
  obtain ⟨htarget, -⟩ := Assembler.applyAll_counted _ _ called hcalled
  obtain ⟨htarget', -⟩ := Assembler.applyAll_counted _ _ returned hreturned
  refine ⟨root, fun op hop => ?_⟩
  obtain ⟨next, e, he⟩ := Assembler.applyAll_lowered _ returned a ha op hop
  rw [htarget', htarget] at he
  exact ⟨next, Target.lower_of_encoded e he⟩

/-- Stores to slots and loads from them have code if they are among the
operations of the slow paths. -/
theorem code_of_assembled {t : Target} {code : Array UInt8} (hcode : assemble t p = .ok code)
    {ks : List Parked} (next : Nat) :
    ((∀ root, ks.map Parked.store ⊆ p.slowPaths root) →
        ∃ e, t.code (ks.map Parked.store) next = .ok e)
      ∧ ((∀ root, ks.map Parked.load ⊆ p.slowPaths root) →
        ∃ e, t.code (ks.map Parked.load) next = .ok e) := by
  obtain ⟨root, hlower⟩ := slowPaths_lowered hcode
  constructor
  · refine fun hsub => Target.code_slots (fun op hop => ⟨?_, hlower op (hsub root hop)⟩) next
    obtain ⟨k, -, rfl⟩ := List.mem_map.mp hop
    exact .inl ⟨_, _, _, rfl⟩
  · refine fun hsub => Target.code_slots (fun op hop => ⟨?_, hlower op (hsub root hop)⟩) next
    obtain ⟨k, -, rfl⟩ := List.mem_map.mp hop
    exact .inr ⟨_, _, _, rfl⟩

/-- A path that saves something before a call and restores it after. -/
theorem saved_subset {ops front save call restore back : List Op}
    (h : front ++ save ++ call ++ restore ++ back ⊆ ops) : save ⊆ ops ∧ restore ⊆ ops := by
  simp only [List.append_subset] at h
  exact ⟨h.1.1.1.2, h.1.2⟩

/-- Arguments are saved around the calls before the native one. -/
theorem arguments_subset (h : p.hasClass ∨ p.options.kind = .normal) (root : Register) :
    p.spillManaged ⊆ p.slowPaths root ∧ p.reloadManaged ⊆ p.slowPaths root := by
  rcases h with hclass | hkind
  · have hpath : p.classBarrier root ⊆ p.slowPaths root := fun op hop => by
      simp [slowPaths, hclass, hop]
    exact saved_subset hpath
  · have hpath : p.methodStart ⊆ p.slowPaths root := fun op hop => by
      simp [slowPaths, hkind, hop]
    exact saved_subset hpath

/-- A result is saved around those after it. -/
theorem result_subset (h : p.options.kind = .normal ∨ p.options.kind = .fast) (root : Register) :
    p.saveResult ⊆ p.slowPaths root ∧ p.restoreResult ⊆ p.slowPaths root := by
  rcases h with hkind | hkind
  · have hpath : p.methodEnd ⊆ p.slowPaths root := fun op hop => by
      simp [slowPaths, hkind, hop]
    exact saved_subset hpath
  · have hpath : p.suspend ⊆ p.slowPaths root := fun op hop => by
      simp [slowPaths, hkind, hop]
    exact saved_subset hpath

/-- What is said of slow paths holds of every plan that could be
assembled. -/
theorem Made.preserves {cores fps : List Nat} {hid : Nat} {r₀ r₁ : Register}
    (h : p.Made cores fps hid r₀ r₁) {t : Target} (hsuits : p.abi.Suits t) (hparks : p.abi.Parks t)
    (hroomy : p.Roomy) {code : Array UInt8} (hcode : assemble t p = .ok code) : p.Preserves t where
  arguments s := by
    have hpark := Target.park_unpark (fun k => h.parked_fits hsuits hparks hroomy)
      (h.parked_apart hsuits) s
    rw [spillManaged_eq, reloadManaged_eq]
    refine hpark.mono fun s₁ hs₁ s₂ hback => (hs₁ s₂ hback).mono fun s₃ ⟨hargs, hmethod⟩ => ?_
    refine ⟨fun reg home size harg => ?_, hmethod _ (List.mem_singleton_self _)⟩
    have hk : (⟨reg, home, size⟩ : Parked) ∈ p.parked := List.mem_map.mpr ⟨_, harg, rfl⟩
    rw [hargs _ hk, Nat.mod_mod]
  result s := by
    have hfits : ∀ k ∈ p.parkedResult ++ [], k.Fits t := fun k hk =>
      (h.result_fits hparks hroomy (List.append_nil p.parkedResult ▸ hk)).1
    have hone : (p.parkedResult ++ []).Pairwise (Parked.Apart t) := by
      rw [List.append_nil, parkedResult]
      split
      · exact List.pairwise_singleton _ _
      · exact List.Pairwise.nil
    have hpark := Target.park_unpark hfits hone s
    rw [List.append_nil] at hpark
    rw [saveResult_eq, restoreResult_eq]
    refine hpark.mono fun s₁ hs₁ s₂ hback => (hs₁ s₂ hback).mono fun s₃ ⟨hresult, _⟩ hsome => ?_
    have hk : (⟨p.resultRegister, p.resultSlot, p.signature.nativeResultSize⟩ : Parked)
        ∈ p.parkedResult := by
      rw [parkedResult, if_pos hsome]
      exact List.mem_singleton_self _
    rw [hresult _ hk, Nat.mod_mod]
  stores op hop := by
    have hframe : 8 ≤ p.abi.frameSize := Nat.le_trans (by decide) hsuits.frame.1
    rw [spillManaged_eq, saveResult_eq] at hop
    rcases List.mem_append.mp hop with hop | hop
    · obtain ⟨k, hk, rfl⟩ := List.mem_map.mp hop
      have hfits := h.parked_fits hsuits hparks hroomy (List.mem_append_left _ hk)
      exact ⟨k.slot, k.reg, k.size, rfl,
        store_elsewhere hfits (h.parked_elsewhere hsuits hk) hroomy hframe⟩
    · obtain ⟨k, hk, rfl⟩ := List.mem_map.mp hop
      obtain ⟨hfits, helsewhere⟩ := h.result_fits hparks hroomy hk
      exact ⟨k.slot, k.reg, k.size, rfl, store_elsewhere hfits helsewhere hroomy hframe⟩
  argumentsCoded hpath next := by
    have hpaths := arguments_subset hpath
    rw [spillManaged_eq, reloadManaged_eq] at hpaths ⊢
    exact ⟨(code_of_assembled hcode next).1 fun root => (hpaths root).1,
      (code_of_assembled hcode next).2 fun root => (hpaths root).2⟩
  resultCoded hpath next := by
    have hpaths := result_subset hpath
    rw [saveResult_eq, restoreResult_eq] at hpaths ⊢
    exact ⟨(code_of_assembled hcode next).1 fun root => (hpaths root).1,
      (code_of_assembled hcode next).2 fun root => (hpaths root).2⟩

end Stub.Plan

namespace Stub

open Convention Plan

theorem ok_of_mapError {ε ε' α : Type} {f : ε → ε'} {x : Except ε α} {a : α}
    (h : x.mapError f = .ok a) : x = .ok a := by
  cases x with
  | error e => cases h
  | ok b =>
      cases h
      rfl

theorem ok_of_bind {ε α β : Type} {x : Except ε α} {f : α → Except ε β} {b : β}
    (h : (x >>= f) = .ok b) : ∃ a, x = .ok a ∧ f a = .ok b := by
  cases x with
  | error e => cases h
  | ok a => exact ⟨a, rfl, h⟩

/-- A method that is compiled has a plan, whose code is the stub's. -/
theorem compile_plan {isa : Isa} {features : Features} {shorty : String} {options : StubOptions}
    {stub : Stub} (h : compile isa features shorty options = .ok stub) :
    ∃ s c t p, Shorty.parse shorty = .ok s ∧ Convention.ofIsa? isa = some c
      ∧ Target.ofIsa isa features = .ok t ∧ Plan.make c s options = .ok p
      ∧ assemble t p = .ok stub.code := by
  obtain ⟨s, hs, h⟩ := ok_of_bind h
  by_cases hstatic : options.kind = .critical ∧ ¬options.isStatic = true
  · rw [if_pos hstatic] at h
    cases h
  rw [if_neg hstatic] at h
  by_cases hcritical : options.kind = .critical ∧ s.hasReferences = true
  · rw [if_pos hcritical] at h
    cases h
  rw [if_neg hcritical] at h
  obtain ⟨t, ht, h⟩ := ok_of_bind h
  cases hc : Convention.ofIsa? isa with
  | none =>
      rw [hc] at h
      cases h
  | some c =>
      rw [hc] at h
      obtain ⟨p, hp, h⟩ := ok_of_bind h
      obtain ⟨code, hcode, h⟩ := ok_of_bind h
      cases h
      exact ⟨s, c, t, p, ok_of_mapError hs, rfl, ok_of_mapError ht, ok_of_mapError hp,
        ok_of_mapError hcode⟩

/-- Calls of the runtime on the slow paths of a stub lose nothing. For every
method that is compiled, on either instruction set: the arguments that came
in registers are back after the call, and the method with them; a result is
back; and what is stored for this reaches neither the outgoing arguments nor
the method's slot, the registers saved for the caller or the home of another
argument. -/
theorem slowPaths_preserve {isa : Isa} {features : Features} {shorty : String}
    {options : StubOptions} {stub : Stub} (h : compile isa features shorty options = .ok stub) :
    ∃ s c t p, Shorty.parse shorty = .ok s ∧ Convention.ofIsa? isa = some c
      ∧ Target.ofIsa isa features = .ok t ∧ Plan.make c s options = .ok p
      ∧ assemble t p = .ok stub.code ∧ p.Preserves t := by
  obtain ⟨s, c, t, p, hs, hc, ht, hp, hcode⟩ := compile_plan h
  refine ⟨s, c, t, p, hs, hc, ht, hp, hcode, ?_⟩
  obtain ⟨rfl, -, -, cores, fps, hid, r₀, r₁, hmade⟩ := made_of_make hc hp
  obtain ⟨hsuits, hparks⟩ := suits_of_isa hc ht
  exact hmade.preserves hsuits hparks (hmade.roomy hsuits hparks hp) hcode

/-- An instance method with an argument of every kind. -/
theorem slowPaths_preserve_mixed : ∃ stub p t spill reload,
    compile .arm64 {} "DLJF" {} = .ok stub ∧ assemble t p = .ok stub.code
      ∧ t.code p.spillManaged 0 = .ok spill ∧ t.code p.reloadManaged 0 = .ok reload
      ∧ p.Preserves t := by
  have hfault : fault? "DLJF".toList {} = none := fault?_eq_none.mpr
    ⟨⟨'D', ['L', 'J', 'F'], rfl, by decide, by simp [ValueType.letters]⟩, fun h => by cases h⟩
  have hreach : HomesInReach "DLJF".toList {} := by
    intro i hi
    obtain ⟨hlt, -⟩ := List.getElem?_eq_some_iff.mp hi
    have hfour : i < 4 := hlt
    show 176 + 0 + 8 * (i + 1) < 4096
    omega
  obtain ⟨-, stub, hstub⟩ | ⟨hnot, -⟩ := compile_arm64_cases hfault (by decide) {}
  · obtain ⟨_, _, t, p, -, -, -, hp, hcode, hpreserves⟩ := slowPaths_preserve hstub
    have hnormal : p.options.kind = .normal := by rw [(laidOut_of_make p hp).options]
    obtain ⟨⟨spill, hspill⟩, reload, hreload⟩ := hpreserves.argumentsCoded (.inr hnormal) 0
    exact ⟨stub, p, t, spill, reload, hstub, hcode, hspill, hreload, hpreserves⟩
  · exact absurd hreach hnot

end Stub

end Crossing
