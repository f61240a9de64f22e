import Crossing.Glue.Assembler
import Crossing.Proofs.Frame.A64
import Crossing.Proofs.Frame.X86

/-
Frames on either target, from the operations that an assembler carries out.
A frame is undone if its caller finds the registers that it saved, the stack
pointer and the return address again, whatever the body did with the rest
of the frame. Vector registers are saved in their lower halves only, since
managed code keeps no more than a `double` in them across calls; the upper
halves come back as zero.
-/
namespace Crossing.Glue

/-- The instructions of an emission, without the labels between them. -/
def Emission.instrs {ι : Type} (e : Emission ι) : List ι :=
  e.items.filterMap fun
    | .instr i => some i
    | .bind _ => none

theorem Emission.instrs_ofInstrs {ι : Type} (next : Nat) (is : List ι) :
    (ofInstrs next is).instrs = is := by
  rw [instrs, ofInstrs, List.filterMap_map]
  exact List.filterMap_some

namespace Target

/-- Registers for frames to save. On ARM64 the assembler refuses what it
cannot save, but takes register 31 for one it can. -/
def Saves (t : Target) (saves : List Register) : Prop :=
  saves.Nodup ∧
    match t with
    | .x86_64 => ∀ r ∈ saves, X86.Saveable r
    | .arm64 _ => ∀ r ∈ saves, r.a64View ≠ .ok (.x .sp)

/-- The bytes of a frame that are spoken for: by registers, by the method,
and on x86-64 by the return address. -/
def reserved (t : Target) (method : Register) (saves : List Register) : Nat :=
  8 * saves.length + (if method.isSome then 8 else 0) +
    match t with
    | .x86_64 => 8
    | .arm64 _ => 0

/-- If a frame is built and removed, then the body runs inside of the frame
and its caller gets back what it had. -/
def Undoes (t : Target) (size : Nat) (method : Register) (saves : List Register)
    (maySuspend : Bool) : Prop :=
  match t with
  | .x86_64 => ∀ {next next' build remove},
      X86.lower (.buildFrame size method saves) next = .ok build →
      X86.lower (.removeFrame size saves maySuspend) next' = .ok remove →
      ∀ s, Reaches X86.step build.instrs s fun s₁ => X86.Framed size method s s₁
        ∧ ∀ s₂, X86.Respects size saves s₁ s₂ →
          ∃ s₃, follow X86.step remove.instrs s₂
              = some (.back (s.memory.read64 (s.reg .rsp)) s₃)
            ∧ X86.Unframed saves s s₂ s₃
  | .arm64 lse => ∀ {next next' build remove},
      A64.lower lse (.buildFrame size method saves) next = .ok build →
      A64.lower lse (.removeFrame size saves maySuspend) next' = .ok remove →
      ∀ s, Reaches A64.step build.instrs s fun s₁ => A64.Framed size method s s₁
        ∧ ∀ s₂, A64.Respects size saves s₁ s₂ →
          ∃ s₃, follow A64.step remove.instrs s₂ = some (.back (s.x .link) s₃)
            ∧ A64.Unframed saves maySuspend s s₂ s₃

/-- A frame of either target is undone by removing it, whichever registers
it saves and in whichever order they are listed. -/
theorem frame_undone {t : Target} {size : Nat} {method : Register} {saves : List Register}
    (hsaves : t.Saves saves) (hsize : size < 2 ^ 31) (hroom : t.reserved method saves ≤ size)
    (maySuspend : Bool) : t.Undoes size method saves maySuspend := by
  obtain ⟨honce, hkind⟩ := hsaves
  cases t with
  | x86_64 =>
      intro next next' build remove hbuild hremove s
      obtain ⟨is, his, hbuild⟩ := bind_eq_ok hbuild
      obtain ⟨is', his', hremove⟩ := bind_eq_ok hremove
      cases hbuild
      cases hremove
      rw [Emission.instrs_ofInstrs, Emission.instrs_ofInstrs]
      exact X86.frame_spec hkind hsize hroom his his' s
  | arm64 lse =>
      intro next next' build remove hbuild hremove s
      obtain ⟨is, his, hbuild⟩ := bind_eq_ok hbuild
      obtain ⟨is', his', hremove⟩ := bind_eq_ok hremove
      cases hbuild
      cases hremove
      rw [Emission.instrs_ofInstrs, Emission.instrs_ofInstrs]
      exact A64.frame_spec hkind honce hsize hroom his his' s

-- ------------------------------------------------ registers of each kind

/-- Two general-purpose registers around an SSE register. -/
def mixedX86 : List Register := [X86.Reg.rbx.handle, X86.xmmHandle 12, X86.Reg.rbp.handle]

/-- The thread, the marking register and the link register, with a
floating-point register between them. -/
def mixedA64 : List Register :=
  [A64.Reg.thread.xHandle, A64.dHandle 8, A64.Reg.marking.xHandle, A64.Reg.link.xHandle]

theorem mixedX86_saves : x86_64.Saves mixedX86 := by
  refine ⟨by decide, fun r hr => ?_⟩
  simp only [mixedX86, List.mem_cons, List.not_mem_nil, or_false] at hr
  obtain rfl | rfl | rfl := hr
  · exact .inl ⟨.rbx, by decide, rfl⟩
  · exact .inr ⟨12, rfl⟩
  · exact .inl ⟨.rbp, by decide, rfl⟩

theorem mixedA64_saves (lse : Bool) : (arm64 lse).Saves mixedA64 := by
  refine ⟨by decide, fun r hr hview => ?_⟩
  have hsp := A64.eq_xHandle hview
  revert r
  decide

theorem frame_undone_mixed :
    (x86_64.Saves mixedX86 ∧ x86_64.reserved X86.Reg.rdi.handle mixedX86 ≤ 64
      ∧ (∃ build, X86.lower (.buildFrame 64 X86.Reg.rdi.handle mixedX86) 0 = .ok build)
      ∧ (∃ remove, X86.lower (.removeFrame 64 mixedX86 false) 0 = .ok remove)
      ∧ x86_64.Undoes 64 X86.Reg.rdi.handle mixedX86 false)
    ∧ ((arm64 true).Saves mixedA64 ∧ (arm64 true).reserved A64.Reg.x0.xHandle mixedA64 ≤ 64
      ∧ (∃ build, A64.lower true (.buildFrame 64 A64.Reg.x0.xHandle mixedA64) 0 = .ok build)
      ∧ (∃ remove, A64.lower true (.removeFrame 64 mixedA64 true) 0 = .ok remove)
      ∧ (arm64 true).Undoes 64 A64.Reg.x0.xHandle mixedA64 true) :=
  ⟨⟨mixedX86_saves, by decide, ⟨_, rfl⟩, ⟨_, rfl⟩,
      frame_undone mixedX86_saves (by decide) (by decide) false⟩,
    ⟨mixedA64_saves true, by decide, ⟨_, rfl⟩, ⟨_, rfl⟩,
      frame_undone (mixedA64_saves true) (by decide) (by decide) true⟩⟩

-- --------------------------------------------------- the upper halves

/-- A state in which the upper halves of vector registers are in use. -/
def wide : Crossing.X86.Cpu where
  reg _ := 0x10000
  xmm _ := BitVec.allOnes 128
  zeroFlag := false
  gs := 0
  memory := ⟨fun _ => 0⟩

/-- Even a body that does nothing does not get all of an SSE register back
to the caller. -/
theorem upper_half_lost : ∃ build remove s₁ s₃,
    X86.lower (.buildFrame 32 .none [X86.xmmHandle 12]) 0 = .ok build
      ∧ X86.lower (.removeFrame 32 [X86.xmmHandle 12] false) 0 = .ok remove
      ∧ follow X86.step build.instrs wide = some (.next s₁)
      ∧ follow X86.step remove.instrs s₁
        = some (.back (wide.memory.read64 (wide.reg .rsp)) s₃)
      ∧ s₃.xmm 12 ≠ wide.xmm 12 := by
  have hview : (X86.xmmHandle 12).x86View = .ok (.xmm 12) := rfl
  have hsaves : ∀ r ∈ [X86.xmmHandle 12], X86.Saveable r :=
    List.forall_mem_singleton.mpr (.inr ⟨12, hview⟩)
  obtain ⟨s₁, hbuilt, -, hbody⟩ := @X86.frame_spec _ 32 .none hsaves (by decide) (by decide) _ _
    rfl rfl wide
  obtain ⟨s₃, hremoved, hback⟩ := hbody s₁ ⟨rfl, fun _ _ _ => rfl⟩
  refine ⟨_, _, s₁, s₃, rfl, rfl, hbuilt, hremoved, ?_⟩
  rw [hback.xmms _ (List.mem_singleton_self _) 12 hview]
  decide

end Target

end Crossing.Glue
