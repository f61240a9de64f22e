import Mathlib
import Crossing.Proofs.Argument.Marshalling
import Crossing.Proofs.Stub.Parts

/-
When a stub can be assembled. The operations that are the same for every
signature go through on both targets. Of the others, those that save and
restore values need slots that the target accesses, and the argument moves
need, for every reference, a slot whose address it can compute. With that,
and with code that is not too long for its branches, assembly cannot fail
(`Made.assemble_ok`).
-/
namespace Crossing

namespace Stub.Plan

open Glue Convention Emission

-- ==================================================== fixed operations

/-- The slots of entrypoints are aligned and not far from the thread. -/
theorem entrypoint_span (e : Entrypoint) : (ThreadBlock.entrypoint .eight e).value % 8 = 0
    ∧ (ThreadBlock.entrypoint .eight e).value / 8 < 4096 := by
  cases e <;> decide

/-- On x86-64 every fixed operation goes through. -/
theorem fixed_x86 {p : Plan} (habi : p.abi = x86_64)
    (hresult : p.resultRegister = p.abi.resultRegister p.signature.result) {op : Op}
    (h : p.Fixed op) :
    Target.x86_64.Lowers op 16 := by
  have hbuild : ∀ method, method = .none ∨ method = x86_64.method →
      ∃ is, X86.buildFrame x86_64.frameSize method x86_64.calleeSaves = .ok is
        ∧ is.length ≤ 16 := by
    rintro _ (rfl | rfl)
    · exact ⟨_, rfl, Nat.le_of_ble_eq_true rfl⟩
    · exact ⟨_, rfl, Nat.le_of_ble_eq_true rfl⟩
  have hremove : ∃ is, X86.removeFrame x86_64.frameSize x86_64.calleeSaves = .ok is
      ∧ is.length ≤ 16 := ⟨_, rfl, Nat.le_of_ble_eq_true rfl⟩
  obtain ⟨abi, ⟨result, params⟩, options, managed, native, classSource, hiddenSource, _⟩ := p
  dsimp only at habi hresult
  subst habi hresult
  refine Target.lowers_x86 ?_
  cases h with
  | build h =>
      obtain ⟨is, his, hlength⟩ := hbuild _ h
      exact emits_instrs his hlength
  | remove =>
      obtain ⟨is, his, hlength⟩ := hremove
      exact emits_instrs his hlength
  | publish =>
      cases options.tagSp <;> exact emits_straight (fun _ => rfl) (Nat.le_of_ble_eq_true rfl)
  | env | loadClass | leave | poll | pollException | deliver | testMarking | testClass | jump =>
      exact emits_straight (fun _ => rfl) (Nat.le_of_ble_eq_true rfl)
  | callMethod h =>
      rcases h with rfl | rfl <;>
        exact emits_straight (fun _ => rfl) (Nat.le_of_ble_eq_true rfl)
  | callRuntime e =>
      have hslot : (ThreadBlock.entrypoint .eight e).value < 2 ^ 31 := by
        have := entrypoint_span e
        omega
      have hmem : X86.threadMem (ThreadBlock.entrypoint .eight e)
          = .ok (.gs (Int32.ofNat (ThreadBlock.entrypoint .eight e).value).toUInt32) := by
        rw [X86.threadMem, Offset.displacement, if_pos hslot]
        rfl
      intro next
      simp only [X86.lower, entrypoint, x86_64, Isa.pointerSize, hmem, bind, Except.bind]
      exact ⟨_, rfl, tight_ofInstrs (Nat.le_of_ble_eq_true rfl)⟩
  | moveResult h | decode h =>
      obtain rfl := show result = _ from h
      exact emits_straight (fun _ => rfl) (Nat.le_of_ble_eq_true rfl)
  | signExtend n h | zeroExtend n h =>
      rcases h with ⟨h, rfl⟩ | ⟨h, rfl⟩ <;> obtain rfl := show result = _ from h <;>
        exact emits_straight (fun _ => rfl) (Nat.le_of_ble_eq_true rfl)
  | comeBack =>
      -- a result in RAX is saved meanwhile
      rcases result with _ | type
      · exact emits_straight (fun _ => rfl) (Nat.le_of_ble_eq_true rfl)
      · cases type <;> exact emits_straight (fun _ => rfl) (Nat.le_of_ble_eq_true rfl)
  | bind m => exact fun next => ⟨_, rfl, Nat.le_refl next, by simp [Op.binds], by simp⟩

/-- On ARM64 too, with compare-and-swap or without. -/
theorem fixed_arm64 {p : Plan} (habi : p.abi = arm64)
    (hresult : p.resultRegister = p.abi.resultRegister p.signature.result) (lse : Bool) {op : Op}
    (h : p.Fixed op) :
    (Target.arm64 lse).Lowers op 16 := by
  have hbuild : ∀ method, method = .none ∨ method = arm64.method →
      ∃ is, A64.buildFrame arm64.frameSize method arm64.calleeSaves = .ok is ∧ is.length ≤ 16 := by
    rintro _ (rfl | rfl)
    · exact ⟨_, rfl, Nat.le_of_ble_eq_true rfl⟩
    · exact ⟨_, rfl, Nat.le_of_ble_eq_true rfl⟩
  have hremove : ∀ maySuspend, ∃ is, A64.removeFrame arm64.frameSize arm64.calleeSaves maySuspend
      = .ok is ∧ is.length ≤ 16 := by
    intro maySuspend
    cases maySuspend <;> exact ⟨_, rfl, Nat.le_of_ble_eq_true rfl⟩
  obtain ⟨abi, ⟨result, params⟩, options, managed, native, classSource, hiddenSource, _⟩ := p
  dsimp only at habi hresult
  subst habi hresult
  refine Target.lowers_arm64 ?_
  cases h with
  | build h =>
      obtain ⟨is, his, hlength⟩ := hbuild _ h
      exact emits_instrs his hlength
  | remove maySuspend =>
      obtain ⟨is, his, hlength⟩ := hremove maySuspend
      exact emits_instrs his hlength
  | publish =>
      dsimp only [slot]
      cases options.tagSp <;> exact emits_straight (fun _ => rfl) (Nat.le_of_ble_eq_true rfl)
  | env =>
      dsimp only [slot]
      exact emits_straight (fun _ => rfl) (Nat.le_of_ble_eq_true rfl)
  | loadClass | poll | pollException | deliver | testMarking | testClass | jump =>
      exact emits_straight (fun _ => rfl) (Nat.le_of_ble_eq_true rfl)
  | callMethod h =>
      dsimp only at h ⊢
      rcases h with rfl | rfl <;>
        exact emits_straight (fun _ => rfl) (Nat.le_of_ble_eq_true rfl)
  | callRuntime e =>
      have hslot := A64.scaled_ok (.inr rfl) (entrypoint_span e)
      intro next
      simp only [A64.lower, entrypoint, arm64, Isa.pointerSize, hslot, bind, Except.bind]
      exact ⟨_, rfl, tight_ofInstrs (Nat.le_of_ble_eq_true rfl)⟩
  | moveResult h | decode h =>
      obtain rfl := show result = _ from h
      exact emits_straight (fun _ => rfl) (Nat.le_of_ble_eq_true rfl)
  | signExtend n h | zeroExtend n h =>
      rcases h with ⟨h, rfl⟩ | ⟨h, rfl⟩ <;> obtain rfl := show result = _ from h <;>
        exact emits_straight (fun _ => rfl) (Nat.le_of_ble_eq_true rfl)
  | leave =>
      -- without compare-and-swap it is tried again, from a label of its own
      cases lse with
      | true => exact emits_straight (fun _ => rfl) (Nat.le_of_ble_eq_true rfl)
      | false =>
          refine fun next => ⟨_, rfl, ?_⟩
          exact tight_own (s := []) (Nat.le_of_ble_eq_true rfl)
  | comeBack =>
      have hresult : A64.checkResult (arm64.resultRegister result) = .ok () := by
        rcases result with _ | type
        · rfl
        · cases type <;> rfl
      intro next
      refine ⟨A64.nativeToRunnable lse Mark.endSlow.index next, ?_, ?_⟩
      · simp only [A64.lower, hresult]
        rfl
      · cases lse with
        | true => exact tight_ofInstrs (Nat.le_of_ble_eq_true rfl)
        | false => exact tight_own (s := []) (Nat.le_of_ble_eq_true rfl)
  | bind m => exact fun next => ⟨_, rfl, Nat.le_refl next, by simp [Op.binds], by simp⟩

end Stub.Plan

-- ============================================================ registers

namespace Convention

open Glue ArgMove

/-- The target can work with the registers of a convention. -/
structure Suits (c : Convention) (t : Target) : Prop where
  isa : t.isa = c.isa
  model : ∀ sp, (c.machine sp).model = t.registers
  frame : 16 ≤ c.frameSize ∧ c.frameSize % 8 = 0
  core : ∀ r ∈ c.nativeCore, ∀ n, n = 4 ∨ n = 8 → t.Core (c.sized r n)
  fp : ∀ r ∈ c.nativeFp, ∀ n, n = 4 ∨ n = 8 → t.Float (c.sized r n)
  pointer : ∀ r ∈ c.managedCore, Yields (t.registers.pointer (c.sized r 4)) t.Core
  method : t.Core c.method
  hidden : t.Core c.hidden
  scratch : t.Core c.scratch.2.2
  result : ∀ type, t.Core (c.resultRegister (some type)) ∨ t.Float (c.resultRegister (some type))
  fixed : ∀ p : Stub.Plan, p.abi = c → p.resultRegister = p.abi.resultRegister p.signature.result →
    ∀ op, p.Fixed op → t.Lowers op 16

theorem suits_x86_64 : x86_64.Suits .x86_64 where
  isa := rfl
  model _ := rfl
  frame := by decide
  core := List.forall_mem_map.mpr fun r _ _ _ => ⟨r, Register.x86View_handle r⟩
  fp := List.forall_mem_map.mpr fun n _ _ _ => ⟨n, Register.x86View_xmmHandle n⟩
  pointer := List.forall_mem_map.mpr fun r _ => yields_pure ⟨r, Register.x86View_handle r⟩
  method := ⟨_, rfl⟩
  hidden := ⟨_, rfl⟩
  scratch := ⟨_, rfl⟩
  result type := by
    cases type with
    | float | double => exact .inr ⟨_, rfl⟩
    | _ => exact .inl ⟨_, rfl⟩
  fixed _ habi hresult _ h := Stub.Plan.fixed_x86 habi hresult h

theorem suits_arm64 (lse : Bool) : arm64.Suits (.arm64 lse) := by
  have harm : arm64.isa = .arm64 := rfl
  refine ⟨rfl, fun _ => rfl, by decide, List.forall_mem_map.mpr fun n _ size _ => ?_,
    List.forall_mem_map.mpr fun n _ size _ => ?_, List.forall_mem_map.mpr fun n _ => ?_,
    ⟨_, .inl rfl⟩, ⟨_, .inl rfl⟩, ⟨_, .inl rfl⟩, fun type => ?_,
    fun _ habi hresult _ h => Stub.Plan.fixed_arm64 habi hresult lse h⟩
  · simp only [sized, harm, Register.a64View_xHandle]
    split
    · exact ⟨⟨n⟩, .inl (Register.a64View_xHandle ⟨n⟩)⟩
    · exact ⟨⟨n⟩, .inr (Register.a64View_wHandle ⟨n⟩)⟩
  · simp only [sized, harm, Register.a64View_dHandle]
    split
    · exact ⟨n, .inl (Register.a64View_dHandle n)⟩
    · exact ⟨n, .inr (Register.a64View_sHandle n)⟩
  · exact yields_bind fun r _ => yields_pure ⟨r, .inl (Register.a64View_xHandle r)⟩
  · cases type with
    | float => exact .inr ⟨_, .inr rfl⟩
    | double => exact .inr ⟨_, .inl rfl⟩
    | long | reference => exact .inl ⟨_, .inl rfl⟩
    | _ => exact .inl ⟨_, .inr rfl⟩

/-- The handle that an assembler gives of a core register is the one that
the convention uses. -/
theorem withSize_eq {c : Convention} {t : Target} (hisa : t.isa = c.isa) {r : Register}
    (hr : t.Core r) {n : Nat} (hn : n = 4 ∨ n = 8) {a : Assembler} (ha : a.target = t) :
    a.withSize r n = .ok (c.sized r n) := by
  subst ha
  unfold Assembler.withSize sized
  rw [← hisa]
  cases htarget : a.target with
  | x86_64 =>
      rw [htarget] at hr
      obtain ⟨reg, hview⟩ := hr
      simp only [X86.withSize, hview, bind, Except.bind]
      rcases hn with rfl | rfl <;> rfl
  | arm64 lse =>
      rw [htarget] at hr
      obtain ⟨reg, hview | hview⟩ := hr <;> simp only [A64.withSize, hview, bind, Except.bind] <;>
        rcases hn with rfl | rfl <;> rfl

-- ======================================================== argument moves

/-- A register of the class that values of a type are passed in. -/
def Carries (t : Target) (type : ValueType) (r : Register) : Prop :=
  if type.isFloating then t.Float r else t.Core r

theorem Carries.either {t : Target} {type : ValueType} {r : Register} (h : Carries t type r) :
    t.Core r ∨ t.Float r := by
  unfold Carries at h
  split at h
  · exact .inr h
  · exact .inl h

theorem Carries.both {t : Target} {type : ValueType} {r r' : Register} (h : Carries t type r)
    (h' : Carries t type r') : t.Core r ∧ t.Core r' ∨ t.Float r ∧ t.Float r' := by
  unfold Carries at h h'
  split at h
  · next hfloat => exact .inr ⟨h, by rwa [if_pos hfloat] at h'⟩
  · next hfloat => exact .inl ⟨h, by rwa [if_neg hfloat] at h'⟩

theorem Carries.core {t : Target} {type : ValueType} {r : Register} (h : Carries t type r)
    (htype : type = .reference) : t.Core r := by
  subst htype
  exact h

section steps

variable {c : Convention} {M : Machine} {cores fps : List Nat} {hid : Nat} {t : Target}
  {area lead : Nat} {s : Seat}

theorem Suits.nativeReg (hsuits : c.Suits t) {reg : Register} (hreg : s.nativeReg c lead = some reg)
    {n : Nat} (hn : n = 4 ∨ n = 8) : Carries t s.type (c.sized reg n) := by
  unfold Seat.nativeReg at hreg
  unfold Carries
  split
  · next hfloat =>
      rw [if_pos hfloat] at hreg
      exact hsuits.fp reg (List.mem_of_getElem? hreg) n hn
  · next hfloat =>
      rw [if_neg hfloat] at hreg
      exact hsuits.core reg (List.mem_of_getElem? hreg) n hn

/-- The slots that an argument uses can be accessed, and the home of a
reference can be addressed. -/
structure Seat.Within (c : Convention) (t : Target) (area lead : Nat) (s : Seat) : Prop where
  home : ∀ n, n = 4 ∨ n = 8 → t.Accesses n (s.home area).value
  native : s.nativeReg c lead = none → ∀ n, n = 4 ∨ n = 8 → t.Accesses n (slotSize * s.stack)
  address : s.type = .reference → t.Addresses (s.home area).value

theorem Seat.within_of_span (harea : area % 8 = 0) (hhome : (s.home area).value < t.span)
    (hroom : s.nativeReg c lead = none → 8 * (s.stack + 1) ≤ area)
    (haddress : s.type = .reference → t.Addresses (s.home area).value) :
    s.Within c t area lead := by
  have hvalue : (s.home area).value = area + 8 * (s.index + 1) := rfl
  refine ⟨fun n hn => Target.accesses_of_span hn ?_ hhome, fun hnone n hn => ?_, haddress⟩
  · omega
  · have := hroom hnone
    rw [slotSize]
    exact Target.accesses_of_span hn (by omega) (by omega)

theorem reference_of_slot (href : (s.transfer c area lead).slot.isReference = true) :
    s.type = .reference := by
  have := s.isReference_transfer c area lead
  rw [Transfer.isReference, href] at this
  exact of_decide_eq_true this.symm

/-- The last move of an argument is feasible, from a register or from its
home. -/
theorem Suits.last_feasible (hsuits : c.Suits t) (hs : s.Within c t area lead) {source : Location}
    (hsource : (∃ reg n, source = .register reg n ∧ Carries t s.type reg)
      ∨ ∃ n, source = .stack (s.home area) n) (i : Nat) :
    ((s.transfer c area lead).last i source).Feasible t := by
  have hsize := nativeSize_cases s.type
  cases hreg : s.nativeReg c lead with
  | some r =>
      have hdest : (s.transfer c area lead).dest
          = .register (c.sized r s.type.nativeSize) s.type.nativeSize := by
        simp only [Seat.transfer, Seat.native, hreg]
      have hcarries := hsuits.nativeReg hreg hsize
      rcases hsource with ⟨reg, n, rfl, hsrc⟩ | ⟨n, rfl⟩
      · simp only [Transfer.last, hdest]
        exact hcarries.both hsrc
      · simp only [Transfer.last, hdest]
        split
        · next href =>
            have htype := reference_of_slot href
            rw [s.slot_transfer c htype]
            exact ⟨hcarries.core htype, (fun _ h => by cases h), hs.home 4 (.inl rfl),
              hs.address htype⟩
        · exact ⟨hcarries.either, hsize, hs.home _ hsize⟩
  | none =>
      have hdest : (s.transfer c area lead).dest
          = .stack ⟨slotSize * s.stack⟩ s.type.nativeSize := by
        simp only [Seat.transfer, Seat.native, hreg]
      rcases hsource with ⟨reg, n, rfl, hsrc⟩ | ⟨n, rfl⟩
      · simp only [Transfer.last, hdest, toStack]
        exact ⟨hsrc.either, hsize, hs.native hreg _ hsize⟩
      · simp only [Transfer.last, hdest, toStack]
        split
        · next href =>
            have htype := reference_of_slot href
            rw [s.slot_transfer c htype]
            exact ⟨hs.native hreg 8 (.inr rfl), hs.home 4 (.inl rfl), hs.address htype⟩
        · exact ⟨hsize, hs.native hreg _ hsize, hs.home _ hsize⟩

/-- Every move that an argument takes is feasible. -/
theorem Suits.steps_feasible (h : c.Regular M cores fps hid) (hsuits : c.Suits t)
    (hs : s.Within c t area lead) (i : Nat) :
    Yields ((s.transfer c area lead).steps t.registers i) fun ms => ∀ m ∈ ms, m.Feasible t := by
  refine yields_bind fun ⟨early, source⟩ hprepare => yields_pure ?_
  have hmanaged := managedSize_cases s.type
  suffices hall : (∀ m ∈ early, m.Feasible t)
      ∧ ((∃ reg n, source = .register reg n ∧ Carries t s.type reg)
        ∨ ∃ n, source = .stack (s.home area) n) by
    intro m hm
    rcases List.mem_append.mp hm with hm | hm
    · exact hall.1 m hm
    · rw [List.mem_singleton.mp hm]
      exact hsuits.last_feasible hs hall.2 i
  unfold Transfer.prepare at hprepare
  cases hreg : s.managedReg c with
  | none =>
      have hsrc : (s.transfer c area lead).source = .stack (s.home area) s.type.managedSize := by
        simp only [Seat.transfer, Seat.managed, hreg]
      rw [hsrc] at hprepare
      cases hprepare
      exact ⟨fun _ hm => (List.not_mem_nil hm).elim, .inr ⟨_, rfl⟩⟩
  | some r =>
      have hsrc : (s.transfer c area lead).source
          = .register (c.sized r s.type.managedSize) s.type.managedSize := by
        simp only [Seat.transfer, Seat.managed, hreg]
      rw [hsrc] at hprepare
      have hcarries := hsuits.nativeReg (h.managedReg_eq s ▸ hreg) hmanaged
      dsimp only at hprepare
      split at hprepare
      · next href =>
          have htype := reference_of_slot href
          obtain ⟨wide, hwide, hprepare⟩ := bind_eq_ok hprepare
          cases hprepare
          have hmem : r ∈ c.managedCore := by
            rw [Seat.managedReg, htype] at hreg
            exact List.mem_of_getElem? hreg
          have hpointer : t.Core wide := by
            rw [htype] at hwide
            exact hsuits.pointer r hmem wide hwide
          have hheld := hcarries.core htype
          rw [s.slot_transfer c htype]
          refine ⟨?_, .inl ⟨_, _, rfl, by rw [htype]; exact hpointer⟩⟩
          simp only [List.forall_mem_cons]
          refine ⟨⟨hheld, hs.home 4 (.inl rfl)⟩, ⟨hpointer, fun reg heq => ?_, hs.home 4 (.inl rfl),
            hs.address htype⟩, fun _ hm => (List.not_mem_nil hm).elim⟩
          injection heq with heq
          exact heq ▸ hheld
      · cases hprepare
        exact ⟨fun _ hm => (List.not_mem_nil hm).elim, .inl ⟨_, _, rfl, hcarries⟩⟩

/-- The method goes from one core register to another. -/
theorem Suits.carry_feasible (hsuits : c.Suits t) {reg : Register} (hreg : t.Core reg) (i : Nat) :
    Yields ((c.carryMethod (.register reg 8)).steps t.registers i)
      fun ms => ∀ m ∈ ms, m.Feasible t := by
  refine yields_pure fun m hm => ?_
  rw [List.mem_singleton.mp hm]
  exact .inl ⟨hreg, hsuits.method⟩

end steps

theorem inRegisters_cons (a : ManagedArg) (as : List ManagedArg) :
    (inRegisters (a :: as)).length
      = (if a.location.isRegister then 1 else 0) + (inRegisters as).length := by
  unfold inRegisters
  rw [List.filterMap_cons]
  cases a.location with
  | register reg n => exact Nat.add_comm _ 1
  | stack offset n => exact (Nat.zero_add _).symm

theorem Seat.isRegister_managed (c : Convention) (area : Nat) (s : Seat) :
    (s.managed c area).location.isRegister = (s.managedReg c).isSome := by
  unfold Seat.managed
  cases s.managedReg c with
  | some r => rfl
  | none => rfl

/-- A reference that goes to a register also comes in one, if there is
something before the arguments. -/
theorem Regular.source_or_dest {c : Convention} {M : Machine} {cores fps : List Nat}
    {hid : Nat} (h : c.Regular M cores fps hid) {s : Seat} (hs : s.type = .reference) {lead : Nat}
    (hlead : 1 ≤ lead) (area : Nat) :
    (s.transfer c area lead).source.isRegister = true
      ∨ (s.transfer c area lead).dest.isRegister = false := by
  cases hreg : s.nativeReg c lead with
  | none =>
      right
      simp only [Seat.transfer, Seat.native, hreg, Location.isRegister]
  | some r =>
      left
      have hcore : c.nativeCore[s.core + lead]? = some r := by
        rw [Seat.nativeReg, hs] at hreg
        exact hreg
      obtain ⟨hlt, -⟩ := List.getElem?_eq_some_iff.mp hcore
      have hfirst : s.nativeReg c 1 = some (c.nativeCore[s.core + 1]) := by
        rw [Seat.nativeReg, hs]
        exact List.getElem?_eq_getElem (by omega)
      rw [Seat.transfer, Seat.isRegister_managed, h.managedReg_eq, hfirst]
      rfl

/-- Only so many arguments come in registers as there are registers
left. -/
theorem inRegisters_length (c : Convention) (area lead : Nat) (ts : List ValueType) :
    ∀ (index : Nat) (k : Taken),
      (inRegisters ((c.seats lead index k ts).map (·.managed c area))).length
        ≤ (c.managedCore.length - k.core) + (c.managedFp.length - k.fp) := by
  induction ts with
  | nil => exact fun _ _ => Nat.zero_le _
  | cons type ts ih =>
      intro index k
      have hrest := ih (index + 1) (Seat.after c lead ⟨type, index, k.core, k.fp, k.stack⟩)
      rw [seats, List.map_cons, inRegisters_cons, Seat.isRegister_managed, Seat.managedReg]
      simp only [Seat.after] at hrest ⊢
      have hlist : ∀ (regs : List Register) (j : Nat),
          (if regs[j]?.isSome = true then 1 else 0) + (regs.length - (j + 1))
            ≤ regs.length - j := by
        intro regs j
        split
        · next h =>
            obtain ⟨r, hr⟩ := Option.isSome_iff_exists.mp h
            obtain ⟨hlt, -⟩ := List.getElem?_eq_some_iff.mp hr
            omega
        · omega
      have hcore := hlist c.managedCore k.core
      have hfp := hlist c.managedFp k.fp
      cases hfloat : type.isFloating with
      | true =>
          simp only [hfloat, if_true] at hrest ⊢
          omega
      | false =>
          simp only [hfloat, Bool.false_eq_true, if_false] at hrest ⊢
          omega

/-- Seats are numbered, and each is that of its argument. -/
theorem seats_getElem? (c : Convention) (lead : Nat) (ts : List ValueType) :
    ∀ (index : Nat) (k : Taken) (i : Nat) (s : Seat), (c.seats lead index k ts)[i]? = some s →
      s.index = index + i ∧ ts[i]? = some s.type := by
  induction ts with
  | nil =>
      intro index k i s hs
      cases hs
  | cons type ts ih =>
      intro index k i s hs
      cases i with
      | zero =>
          cases hs
          exact ⟨rfl, rfl⟩
      | succ i =>
          obtain ⟨hindex, htype⟩ := ih (index + 1) _ i s hs
          exact ⟨by omega, htype⟩

end Convention

theorem Stub.Mark.index_inj {m m' : Mark} (h : m.index = m'.index) : m = m' := by
  have hlist : ∀ m : Mark, [classSlow, classResume, startSlow, startResume, endSlow, endResume,
      decodeSlow, decodeResume, suspendSlow, suspendResume, exceptionSlow][m.index]? = some m := by
    intro m
    cases m <;> rfl
  have hm := hlist m
  rw [h, hlist m'] at hm
  injection hm with hm
  exact hm.symm

namespace Stub.Plan

open Glue Convention

-- ================================================================ plans

/-- The seats of a plan's arguments. -/
def seats (p : Plan) : List Seat :=
  p.abi.seats (lead p.options.isStatic p.options.kind) 0 {}
    (p.signature.arguments p.options.isStatic)

/-- Where the caller's area begins. -/
def area (p : Plan) : Nat := p.native.outArgsSize + p.abi.frameSize

/-- A plan that `make` has laid out, on registers `cores` and `fps`. -/
structure Made (p : Plan) (cores fps : List Nat) (hid : Nat) (r₀ r₁ : Register) : Prop where
  regular : p.abi.Regular (p.abi.machine 0) cores fps hid
  first : p.abi.nativeCore[0]? = some r₀
  second : p.abi.nativeCore[1]? = some r₁
  class_ : ∃ q, cores[1]? = some q ∧ (p.abi.machine 0).model.place (p.abi.sized r₁ 8) = .ok q
  managed : p.managed = p.seats.map (·.managed p.abi p.area)
  native : NativeLayout p.abi p.native p.options.isStatic p.options.kind r₀ r₁ p.seats
  classSource : p.classSource = p.native.class_.map fun _ => .register p.abi.method 8
  hiddenSource : p.hiddenSource = p.native.hidden.map fun _ => .register p.abi.method 8
  result : p.resultRegister = p.abi.resultRegister p.signature.result

theorem made_of_make {isa : Isa} {abi : Convention} (habi : Convention.ofIsa? isa = some abi)
    {s : Shorty} {options : StubOptions} {p : Plan} (hp : make abi s options = .ok p) :
    p.abi = abi ∧ p.signature = s ∧ p.options = options
      ∧ ∃ cores fps hid r₀ r₁, p.Made cores fps hid r₀ r₁ := by
  have hlaid := laidOut_of_make p hp
  obtain rfl := hlaid.abi
  obtain rfl := hlaid.signature
  obtain rfl := hlaid.options
  obtain ⟨cores, fps, hid, hregular⟩ := regular_of_isa habi 0
  obtain ⟨r₀, r₁, q₀, q₁, hr₀, hr₁, hq₀, hq₁, hp₀, hp₁⟩ := hregular.leading
  exact ⟨rfl, rfl, rfl, cores, fps, hid, r₀, r₁, hregular, hr₀, hr₁, ⟨q₁, hq₁, hp₁⟩, hlaid.seats,
    nativeArguments_layout hr₀ hr₁ _ _ _ p.native hlaid.native, hlaid.classSource,
    hlaid.hiddenSource, hlaid.result⟩

section Made

variable {p : Plan} {cores fps : List Nat} {hid : Nat} {r₀ r₁ : Register}
  (h : p.Made cores fps hid r₀ r₁)

include h

theorem Made.env : p.EnvInRegister := by
  intro l hl
  rw [h.native.env] at hl
  split at hl
  · cases hl
  · injection hl with hl
    have hfirst : p.abi.firstNative = r₀ := by
      rw [firstNative, List.headD_eq_head?_getD, List.head?_eq_getElem?, h.first]
      rfl
    rw [hfirst]
    exact hl.symm

theorem Made.marshalling_eq :
    let ts := p.abi.transfers p.native p.area (lead p.options.isStatic p.options.kind) p.seats
    p.marshalling = (ts.map (·.dest), ts.map (·.source), ts.map (·.slot)) :=
  Plan.marshalling_eq h.managed h.native.args h.classSource h.hiddenSource

theorem Made.marshalling_length : p.marshalling.1.length ≤ p.seats.length + 1 := by
  have hclass : p.native.class_.toList.length + p.native.hidden.toList.length ≤ 1 := by
    rw [h.native.class_, h.native.hidden]
    by_cases hcritical : p.options.kind = .critical
    · simp [hcritical]
    · rw [if_neg hcritical]
      split
      · exact Nat.le_refl 1
      · exact Nat.zero_le 1
  simp only [marshalling, List.length_append, h.native.args, List.length_map]
  omega

theorem Made.held_le : p.held ≤ p.abi.managedCore.length + p.abi.managedFp.length := by
  rw [held, h.managed]
  exact inRegisters_length p.abi p.area _ _ 0 {}

/-- The transfers of a plan can be made. -/
theorem Made.lowers_marshal {t : Target} (hsuits : p.abi.Suits t)
    (hwithin : ∀ s ∈ p.seats, s.Within p.abi t p.area (lead p.options.isStatic p.options.kind)) :
    t.Lowers (.moveArguments p.marshalling.1 p.marshalling.2.1 p.marshalling.2.2)
      (7 * p.marshalling.1.length) := by
  obtain ⟨q₁, hq₁, hp₁⟩ := h.class_
  have harea : p.native.outArgsSize ≤ p.area := Nat.le_add_right _ _
  have hpairs := (seats_pairwise p.abi (lead p.options.isStatic p.options.kind)
    (p.signature.arguments p.options.isStatic) 0 {}).1
  obtain ⟨rank, hrank⟩ := h.regular.transfers_ranked hq₁ hp₁ h.native
  obtain ⟨ms, hplan, -⟩ := Transfer.plan_ranked (h.regular.transfers_sane hq₁ hp₁ h.native harea)
    (h.regular.transfers_apart hq₁ hp₁ h.native harea hpairs) rank hrank
  rw [hsuits.model 0] at hplan
  have hcost := ArgMove.plan_cost ms hplan
  have hfeasible := ArgMove.plan_forall (fun i a ha => by
    rcases h.native.mem_transfers (List.mem_of_getElem? ha)
      with ⟨-, -, rfl⟩ | ⟨s, hs, rfl⟩ | ⟨-, rfl⟩
    · exact hsuits.carry_feasible
        (hsuits.core r₁ (List.mem_of_getElem? h.second) 8 (.inr rfl)) i
    · exact hsuits.steps_feasible h.regular (hwithin s hs) i
    · exact hsuits.carry_feasible hsuits.hidden i) ms hplan
  rw [h.marshalling_eq]
  simp only [List.length_map]
  exact (Target.lowers_moveArguments hplan hfeasible).mono hcost

end Made

-- ============================================================= assembly

/-- Carrying out all operations of a plan is carrying out its parts. -/
theorem applyAll_ops {p : Plan} {a₀ a : Assembler} (ha : a₀.applyAll p.ops = .ok a) :
    ∃ called returned, a₀.applyAll (p.entry ++ p.callNative) = .ok called
      ∧ called.applyAll p.exit = .ok returned
      ∧ returned.applyAll (p.slowPaths p.root) = .ok a := by
  rw [ops, Assembler.applyAll_append, Assembler.applyAll_append] at ha
  obtain ⟨returned, hreturned, ha⟩ := bind_eq_ok ha
  obtain ⟨called, hcalled, hreturned⟩ := bind_eq_ok hreturned
  exact ⟨called, returned, hcalled, hreturned, ha⟩

/-- An assembled stub has been through its stages one after the other. -/
theorem assemble_stages {t : Target} {p : Plan} : Yields (assemble t p) fun _ =>
    ∃ called returned root a, (start t).applyAll (p.entry ++ p.callNative) = .ok called
      ∧ called.applyAll p.exit = .ok returned
      ∧ returned.applyAll (p.slowPaths root) = .ok a := by
  refine yields_bind fun called hcalled => yields_bind fun expected _ =>
    yields_ite (fun _ => yields_error _) fun _ => yields_bind fun returned hreturned => ?_
  refine yields_ite (fun _ => yields_bind fun root _ => ?_) fun _ => ?_
  · exact yields_bind fun a ha => fun _ _ => ⟨called, returned, root, a, hcalled, hreturned, ha⟩
  · exact yields_bind fun root _ => yields_bind fun a ha => fun _ _ =>
      ⟨called, returned, root, a, hcalled, hreturned, ha⟩

/-- Without a class to mark, its register does not matter. -/
theorem slowPaths_of_not_hasClass {p : Plan} (h : ¬p.hasClass) (root root' : Register) :
    p.slowPaths root = p.slowPaths root' := by
  simp only [slowPaths, if_neg h]

/-- The frame that is built has the size of the plan's. -/
theorem cfaAfter_build {p : Plan} {t : Target} (hsuits : p.abi.Suits t)
    (hresult : p.resultRegister = p.abi.resultRegister p.signature.result)
    (hsize : p.abi.frameSize < wordLimit) :
    Assembler.cfaAfter t 0 (.buildFrame p.abi.frameSize
      (if p.isCritical = true then .none else p.abi.method) p.abi.calleeSaves)
        = .ok p.abi.frameSize := by
  have hbuild : p.Fixed (.buildFrame p.abi.frameSize
      (if p.isCritical = true then .none else p.abi.method) p.abi.calleeSaves) := by
    refine .build ?_
    split
    · exact .inl rfl
    · exact .inr rfl
  obtain ⟨e, he, -⟩ := hsuits.fixed p rfl hresult _ hbuild 0
  exact Assembler.cfaAfter_buildFrame hsize t _ _ 0 e he

/-- The checks between the parts of a stub pass: at the native call the
count of the stack is right, and the register of the class has a 32-bit
handle. -/
theorem assemble_of_ops {p : Plan} {t : Target} (hsuits : p.abi.Suits t)
    (hresult : p.resultRegister = p.abi.resultRegister p.signature.result)
    (hword : p.abi.frameSize + p.native.outArgsSize < wordLimit) {a : Assembler}
    (ha : (start t).applyAll p.ops = .ok a) {code : Array UInt8}
    (hcode : (a.finalize >>= Assembler.code) = .ok code) :
    assemble t p = .ok code := by
  obtain ⟨called, returned, hcalled, hreturned, hlast⟩ := applyAll_ops ha
  obtain ⟨htarget, hcount⟩ := Assembler.applyAll_counted _ _ called hcalled
  obtain ⟨htarget', -⟩ := Assembler.applyAll_counted _ _ returned hreturned
  have hexpected : called.cfaOffset = p.abi.frameSize + p.native.outArgsSize := by
    have hsum : (p.entry ++ p.callNative).foldlM (Assembler.cfaAfter t) 0 = .ok called.cfaOffset :=
      hcount
    rw [cfa_called hword (cfaAfter_build hsuits hresult (by omega))] at hsum
    injection hsum with hsum
    exact hsum.symm
  have hsum : addWord p.abi.frameSize p.native.outArgsSize
      = .ok (p.abi.frameSize + p.native.outArgsSize) := if_pos hword
  have hroot : returned.withSize p.abi.scratch.2.2 4 = .ok p.root :=
    withSize_eq hsuits.isa hsuits.scratch (.inl rfl) (htarget'.trans htarget)
  simp only [assemble, hcalled, hsum, hexpected, hreturned, bind, Except.bind, ne_eq,
    not_true_eq_false, if_false]
  split
  · simp only [hroot, hlast]
    exact hcode
  · next hnone =>
      have hlast' : returned.applyAll (p.slowPaths Register.none) = .ok a := by
        rw [slowPaths_of_not_hasClass hnone Register.none p.root, hlast]
      simp only [pure, Except.pure, hlast']
      exact hcode

/-- What a target must manage for a plan: reach every slot of the frame and
the caller's area, make room for the outgoing arguments, address the homes
of references, and branch across the code. -/
structure Fits (p : Plan) (t : Target) : Prop where
  span : p.area + 8 * p.seats.length < t.span
  adjusts : t.Adjusts p.native.outArgsSize
  addresses : ∀ s ∈ p.seats, s.type = .reference → t.Addresses (s.home p.area).value
  reach : 15 * (7 * (p.seats.length + 1) + 64 * p.held + 752) < t.reach

section Made

variable {p : Plan} {cores fps : List Nat} {hid : Nat} {r₀ r₁ : Register}
  (h : p.Made cores fps hid r₀ r₁) {t : Target} (hsuits : p.abi.Suits t) (hfits : p.Fits t)

include h hsuits hfits

theorem Made.within {s : Seat} (hs : s ∈ p.seats) :
    s.Within p.abi t p.area (lead p.options.isStatic p.options.kind) := by
  obtain ⟨i, hi⟩ := List.getElem?_of_mem hs
  obtain ⟨hlt, -⟩ := List.getElem?_eq_some_iff.mp hi
  obtain ⟨hindex, -⟩ := seats_getElem? _ _ _ _ _ i s hi
  have hframe := hsuits.frame.2
  have hspan := hfits.span
  have hout := hfits.adjusts.aligned
  have hvalue : (s.home p.area).value = p.area + 8 * (s.index + 1) := rfl
  refine Seat.within_of_span ?_ (by omega) (fun hnone => ?_) (hfits.addresses s hs)
  · rw [area]
    omega
  · have := h.native.room s hs hnone
    rw [area]
    omega

/-- An argument that comes in a register can be saved to its home. -/
theorem Made.held_within {arg : Register × FrameOffset × Nat} (harg : arg ∈ inRegisters p.managed) :
    (t.Core arg.1 ∨ t.Float arg.1) ∧ (arg.2.2 = 4 ∨ arg.2.2 = 8)
      ∧ t.Accesses arg.2.2 arg.2.1.value := by
  rw [h.managed] at harg
  obtain ⟨a, ha, hloc⟩ := List.mem_filterMap.mp harg
  obtain ⟨s, hs, rfl⟩ := List.mem_map.mp ha
  cases hreg : s.managedReg p.abi with
  | none =>
      simp only [Seat.managed, hreg] at hloc
      cases hloc
  | some r =>
      simp only [Seat.managed, hreg, Option.some.injEq] at hloc
      subst hloc
      have hsize := managedSize_cases s.type
      have hcarries := hsuits.nativeReg (h.regular.managedReg_eq s ▸ hreg) hsize
      exact ⟨hcarries.either, hsize, (h.within hsuits hfits hs).home _ hsize⟩

/-- Every operation of the stub goes through. -/
theorem Made.lowers {op : Op} (hop : p.Uses op) : t.Lowers op (opCost op) := by
  have hspan := hfits.span
  have hframe := hsuits.frame
  have haligned := hfits.adjusts.aligned
  rw [area] at hspan
  have hmethod : t.Accesses 8 p.methodSlot.value :=
    Target.accesses_of_span (.inr rfl) (show p.native.outArgsSize % 8 = 0 by omega)
      (show p.native.outArgsSize < t.span by omega)
  have hresult : ∀ n, n = 4 ∨ n = 8 → t.Accesses n p.resultSlot.value := fun n hn =>
    Target.accesses_of_span hn (show (p.native.outArgsSize + 8) % 8 = 0 by omega)
      (show p.native.outArgsSize + 8 < t.span by omega)
  have hreturned : p.resultRegister.isSome = true →
      (t.Core p.resultRegister ∨ t.Float p.resultRegister)
        ∧ (p.signature.nativeResultSize = 4 ∨ p.signature.nativeResultSize = 8) := by
    rw [h.result]
    unfold Shorty.nativeResultSize
    cases p.signature.result with
    | none => exact fun hsome => absurd hsome Bool.false_ne_true
    | some type => exact fun _ => ⟨hsuits.result type, nativeSize_cases type⟩
  cases hop with
  | fixed hop =>
      have hcost : opCost op = 16 := by cases hop <;> rfl
      rw [hcost]
      exact hsuits.fixed p rfl h.result op hop
  | grow => exact (Target.lowers_adjust hfits.adjusts).1.mono (Nat.le_of_ble_eq_true rfl)
  | shrink => exact (Target.lowers_adjust hfits.adjusts).2.mono (Nat.le_of_ble_eq_true rfl)
  | marshal => exact h.lowers_marshal hsuits fun s hs => h.within hsuits hfits hs
  | loadMethod hdest =>
      refine (Target.lowers_load (.inl ?_) (.inr rfl) hmethod).mono (Nat.le_of_ble_eq_true rfl)
      rcases hdest with rfl | rfl
      · exact hsuits.method
      · exact hsuits.scratch
  | spill harg =>
      obtain ⟨hreg, hsize, hslot⟩ := h.held_within hsuits hfits harg
      exact (Target.lowers_store hreg hsize hslot).mono (Nat.le_of_ble_eq_true rfl)
  | reload harg =>
      obtain ⟨hreg, hsize, hslot⟩ := h.held_within hsuits hfits harg
      exact (Target.lowers_load hreg hsize hslot).mono (Nat.le_of_ble_eq_true rfl)
  | saveResult hsome =>
      obtain ⟨hreg, hsize⟩ := hreturned hsome
      exact (Target.lowers_store hreg hsize (hresult _ hsize)).mono (Nat.le_of_ble_eq_true rfl)
  | restoreResult hsome =>
      obtain ⟨hreg, hsize⟩ := hreturned hsome
      exact (Target.lowers_load hreg hsize (hresult _ hsize)).mono (Nat.le_of_ble_eq_true rfl)

/-- Assembling such a plan cannot fail: besides its operations and labels,
the count of the stack at the native call is in order, and so is the handle
of the class's register. -/
theorem Made.assemble_ok : ∃ code, assemble t p = .ok code := by
  obtain ⟨bound, named, hpart, hnodup, hnamed⟩ := part_ops h.env
  have hword : p.abi.frameSize + p.native.outArgsSize < wordLimit := by
    have hspan := hfits.span
    have hlimit : t.span ≤ wordLimit := by
      cases t with
      | x86_64 => exact Nat.pow_le_pow_right (by decide) (by decide)
      | arm64 lse => exact Nat.pow_le_pow_right (by decide) (by decide)
    rw [area] at hspan
    omega
  have hlabels : ∀ op ∈ p.ops, ∀ l ∈ op.labels, l ∈ firstLabels t 0 markCount := by
    intro op hop l hl
    obtain ⟨m, rfl⟩ := (hpart.uses op hop).labels hl
    refine List.mem_map.mpr ⟨m.index, List.mem_range.mpr ?_, ?_⟩
    · cases m <;> decide
    · rw [label, hsuits.isa]
  have hdistinct : ([] ++ p.ops.flatMap Op.binds).Nodup := by
    rw [List.nil_append, hpart.binds]
    exact List.pairwise_map.mpr (hnodup.imp fun hne heq => hne (Mark.index_inj heq))
  have hbuild := cfaAfter_build hsuits h.result (by omega)
  obtain ⟨a, ha, hstage⟩ := (stage_start t 0 markCount).applyAll p.ops
    (fun op hop => h.lowers hsuits hfits (hpart.uses op hop)) hlabels hdistinct
    ⟨_, cfa_ops hword hbuild⟩
  have hcost := hpart.cost
  have hlength := h.marshalling_length
  have hreach := hfits.reach
  obtain ⟨a', code, hfinal, hcode⟩ := hstage.finalize_ok
    (fun l hl => by
      rw [List.nil_append, hpart.names] at hl
      obtain ⟨m, hm, rfl⟩ := List.mem_map.mp hl
      rw [List.nil_append, hpart.binds]
      exact List.mem_map_of_mem (hnamed m hm))
    (by omega)
  exact ⟨code, assemble_of_ops hsuits h.result hword ha (by rw [hfinal]; exact hcode)⟩

end Made

/-- On ARM64 a stub that was assembled has the homes of all references
within reach. -/
theorem Made.addressed {p : Plan} {cores fps : List Nat} {hid : Nat} {r₀ r₁ : Register}
    (h : p.Made cores fps hid r₀ r₁) {lse : Bool}
    (hkind : p.options.kind ≠ .critical) {s : Seat} (hs : s ∈ p.seats) (hs' : s.type = .reference) :
    Yields (assemble (.arm64 lse) p) fun _ => (s.home p.area).value < 4096 := by
  intro code hcode
  obtain ⟨called, -, -, -, hcalled, -⟩ := assemble_stages code hcode
  have hmem : .moveArguments p.marshalling.1 p.marshalling.2.1 p.marshalling.2.2
      ∈ p.entry ++ p.callNative := by
    simp [Plan.entry]
  obtain ⟨next, e, he⟩ := Assembler.applyAll_lowered _ _ called hcalled _ hmem
  obtain ⟨ms, hplan, haddresses⟩ := A64.moveArguments_addresses e he
  rw [h.marshalling_eq] at hplan
  have htransfer : s.transfer p.abi p.area (lead p.options.isStatic p.options.kind)
      ∈ p.abi.transfers p.native p.area (lead p.options.isStatic p.options.kind) p.seats :=
    List.mem_append_left _ (List.mem_append_right _ (List.mem_map_of_mem hs))
  obtain ⟨m, hm, hslot⟩ := ArgMove.plan_handles htransfer
    (by rw [Seat.isReference_transfer, decide_eq_true hs'])
    (h.regular.source_or_dest hs' (lead_pos p.options.isStatic hkind) p.area) ms hplan
  rw [s.slot_transfer p.abi hs'] at hslot
  exact haddresses m hm _ hslot

end Stub.Plan

end Crossing
