import Crossing.Proofs.Argument.Moves
import Crossing.Proofs.Glue.Assembly

/-
Which moves a target can make. On both targets a move asks for registers of
the right class, for frame slots that a load or store reaches, and, where a
reference is handed over, for a slot whose address one instruction can
compute. The two targets differ in what they reach: x86-64 holds any
displacement of 31 bits, ARM64 a small multiple of the size of the access,
and an address of twelve bits only.
-/
namespace Crossing

-- ============================================================= handles

namespace Register

theorem not_isNone {r : Register} {n : Nat} (h : r.id = n) : ¬r.isNone = true := by
  rw [isNone, decide_eq_true_eq]
  omega

theorem x86View_handle (r : X86.Reg) : r.handle.x86View = .ok (.cpu r) := by
  have hlt := r.index.isLt
  have hid : r.handle.id = r.index.val := rfl
  rw [x86View, if_neg (not_isNone hid), dif_pos ⟨by omega, by omega⟩]
  rfl

theorem x86View_xmmHandle (n : Fin 16) : (X86.xmmHandle n).x86View = .ok (.xmm n) := by
  have hlt := n.isLt
  have hid : (X86.xmmHandle n).id = (16 + n.val : Nat) := rfl
  rw [x86View, if_neg (not_isNone hid), dif_neg (by omega), dif_pos ⟨by omega, by omega⟩]
  simp only [Except.ok.injEq, X86.View.xmm.injEq, Fin.ext_iff, hid]
  omega

theorem a64View_xHandle (r : A64.Reg) : r.xHandle.a64View = .ok (.x r) := by
  have hlt := r.index.isLt
  have hid : r.xHandle.id = r.index.val := rfl
  rw [a64View, if_neg (not_isNone hid), dif_pos ⟨by omega, by omega⟩]
  rfl

theorem a64View_wHandle (r : A64.Reg) : r.wHandle.a64View = .ok (.w r) := by
  obtain ⟨n⟩ := r
  have hlt := n.isLt
  have hid : (A64.Reg.wHandle ⟨n⟩).id = (32 + n.val : Nat) := rfl
  rw [a64View, if_neg (not_isNone hid), dif_neg (by omega), dif_pos ⟨by omega, by omega⟩]
  simp only [Except.ok.injEq, A64.View.w.injEq, A64.Reg.mk.injEq, Fin.ext_iff, hid]
  omega

theorem a64View_dHandle (n : Fin 32) : (A64.dHandle n).a64View = .ok (.d n) := by
  have hlt := n.isLt
  have hid : (A64.dHandle n).id = (64 + n.val : Nat) := rfl
  rw [a64View, if_neg (not_isNone hid), dif_neg (by omega), dif_neg (by omega),
    dif_pos ⟨by omega, by omega⟩]
  simp only [Except.ok.injEq, A64.View.d.injEq, Fin.ext_iff, hid]
  omega

theorem a64View_sHandle (n : Fin 32) : (A64.sHandle n).a64View = .ok (.s n) := by
  have hlt := n.isLt
  have hid : (A64.sHandle n).id = (96 + n.val : Nat) := rfl
  rw [a64View, if_neg (not_isNone hid), dif_neg (by omega), dif_neg (by omega),
    dif_neg (by omega), dif_pos ⟨by omega, by omega⟩]
  simp only [Except.ok.injEq, A64.View.s.injEq, Fin.ext_iff, hid]
  omega

end Register

-- ============================================================= targets

namespace Glue.Target

/-- A general-purpose register, in whichever width. -/
def Core : Target → Register → Prop
  | .x86_64, r => ∃ reg, r.x86View = .ok (.cpu reg)
  | .arm64 _, r => ∃ reg, r.a64View = .ok (.x reg) ∨ r.a64View = .ok (.w reg)

/-- A floating-point register, in whichever width. -/
def Float : Target → Register → Prop
  | .x86_64, r => ∃ n, r.x86View = .ok (.xmm n)
  | .arm64 _, r => ∃ n, r.a64View = .ok (.d n) ∨ r.a64View = .ok (.s n)

/-- The `size` bytes of the frame at `offset` can be loaded and stored. -/
def Accesses : Target → Nat → Nat → Prop
  | .x86_64, _, offset => offset < 2 ^ 31
  | .arm64 _, size, offset => offset % size = 0 ∧ offset / size < 4096

/-- The address of the frame slot at `offset` can be put into a register. -/
def Addresses : Target → Nat → Prop
  | .x86_64, offset => offset < 2 ^ 31
  | .arm64 _, offset => offset < 4096

/-- The stack pointer can be moved by `n` bytes. -/
def Adjusts : Target → Nat → Prop
  | .x86_64, n => n % 16 = 0
  | .arm64 _, n => n % 16 = 0 ∧ n < 2 ^ 24

theorem Adjusts.aligned {t : Target} {n : Nat} (h : t.Adjusts n) : n % 16 = 0 := by
  cases t with
  | x86_64 => exact h
  | arm64 lse => exact h.1

/-- Every aligned slot below this can be accessed. -/
def span : Target → Nat
  | .x86_64 => 2 ^ 31
  | .arm64 _ => 2 ^ 14

theorem accesses_of_span {t : Target} {size offset : Nat} (hsize : size = 4 ∨ size = 8)
    (haligned : offset % 8 = 0) (h : offset < t.span) : t.Accesses size offset := by
  cases t with
  | x86_64 => exact h
  | arm64 lse =>
      have hlt : offset < 2 ^ 14 := h
      rcases hsize with rfl | rfl
      · exact ⟨by omega, by omega⟩
      · exact ⟨haligned, by omega⟩

/-- The registers that planning knows of a target. -/
def registers : Target → RegisterModel
  | .x86_64 => .x86
  | .arm64 _ => .arm64

end Glue.Target

namespace ArgMove

open Glue

/-- A move that a target can make. -/
def Feasible (t : Target) : ArgMove → Prop
  | .spillReference reg slot => t.Core reg ∧ t.Accesses 4 slot.value
  | .storeToStack dest src size =>
      (t.Core src ∨ t.Float src) ∧ (size = 4 ∨ size = 8) ∧ t.Accesses size dest.value
  | .handleToStack dest slot _ =>
      t.Accesses 8 dest.value ∧ t.Accesses 4 slot.value ∧ t.Addresses slot.value
  | .copyToStack dest src size =>
      (size = 4 ∨ size = 8) ∧ t.Accesses size dest.value ∧ t.Accesses size src.value
  | .moveToRegister dest src _ => t.Core dest ∧ t.Core src ∨ t.Float dest ∧ t.Float src
  | .handleToRegister dest slot held _ =>
      t.Core dest ∧ (∀ reg, held = some reg → t.Core reg) ∧ t.Accesses 4 slot.value
        ∧ t.Addresses slot.value
  | .loadToRegister dest src size =>
      (t.Core dest ∨ t.Float dest) ∧ (size = 4 ∨ size = 8) ∧ t.Accesses size src.value

end ArgMove

namespace Glue

open Emission

-- ============================================================== x86-64

namespace X86

open Crossing.X86

theorem cpu_ok {r : Register} {reg : Reg} (h : r.x86View = .ok (.cpu reg)) : r.cpu = .ok reg := by
  rw [Register.cpu, h]
  rfl

theorem frameMem_ok {offset : FrameOffset} (h : offset.value < 2 ^ 31) :
    frameMem offset = .ok (.base .rsp (Int32.ofNat offset.value)) := by
  rw [frameMem, Offset.displacement, if_pos h]
  rfl

/-- A register can be stored, in one instruction. -/
theorem storeTo_ok {src : Register} (hsrc : Target.x86_64.Core src ∨ Target.x86_64.Float src)
    {size : Nat} (hsize : size = 4 ∨ size = 8) (mem : Mem) :
    ∃ i, storeTo mem src size = .ok [i] := by
  rcases hsrc with ⟨r, hr⟩ | ⟨r, hr⟩ <;> rcases hsize with rfl | rfl <;> rw [storeTo, hr] <;>
    exact ⟨_, rfl⟩

theorem loadFrom_ok {dest : Register} (hdest : Target.x86_64.Core dest ∨ Target.x86_64.Float dest)
    {size : Nat} (hsize : size = 4 ∨ size = 8) (mem : Mem) :
    ∃ i, loadFrom dest mem size = .ok [i] := by
  rcases hdest with ⟨r, hr⟩ | ⟨r, hr⟩ <;> rcases hsize with rfl | rfl <;> rw [loadFrom, hr] <;>
    exact ⟨_, rfl⟩

theorem moveRegister_ok {dest src : Register}
    (h : Target.x86_64.Core dest ∧ Target.x86_64.Core src
      ∨ Target.x86_64.Float dest ∧ Target.x86_64.Float src) (size : Nat) :
    ∃ is, moveRegister dest src size = .ok is ∧ is.length ≤ 1 := by
  unfold moveRegister
  split
  · exact ⟨[], rfl, by decide⟩
  · rcases h with ⟨⟨d, hd⟩, s, hs⟩ | ⟨⟨d, hd⟩, s, hs⟩
    · rw [hd, hs]
      by_cases hsize : size = 8
      · exact ⟨[_], if_pos hsize, Nat.le_refl 1⟩
      · exact ⟨[_], if_neg hsize, Nat.le_refl 1⟩
    · rw [hd, hs]
      exact ⟨[_], rfl, Nat.le_refl 1⟩

theorem copySlot_ok {dest src : FrameOffset} (hdest : dest.value < 2 ^ 31)
    (hsrc : src.value < 2 ^ 31) {size : Nat} (hsize : size = 4 ∨ size = 8) :
    ∃ i j, copySlot dest src size = .ok [i, j] := by
  rcases hsize with rfl | rfl
  · simp only [copySlot, frameMem_ok hdest, frameMem_ok hsrc]
    exact ⟨_, _, rfl⟩
  · simp only [copySlot, frameMem_ok hdest, frameMem_ok hsrc]
    exact ⟨_, _, rfl⟩

theorem handleInRegister_emits {dest : Register} {slot : FrameOffset} {held : Option Register}
    (hdest : Target.x86_64.Core dest) (hheld : ∀ reg, held = some reg → Target.x86_64.Core reg)
    (hslot : slot.value < 2 ^ 31) (nullAllowed : Bool) :
    Emits (handleInRegister dest slot held nullAllowed) [] 5 := by
  intro next
  obtain ⟨out, hout⟩ := hdest
  have hmem := frameMem_ok hslot
  have hclear : ∀ input, (if out ≠ input then [Instr.xor out out] else []).length ≤ 1 := by
    intro input
    split <;> simp
  cases held with
  | none =>
      simp only [handleInRegister, cpu_ok hout, hmem, bind, Except.bind, pure, Except.pure]
      cases nullAllowed with
      | true =>
          refine ⟨_, rfl, tight_own (t := []) ?_⟩
          have := hclear out
          simp only [List.length_append, List.length_cons, List.length_nil]
          omega
      | false => exact ⟨_, rfl, tight_ofInstrs (Nat.le_of_ble_eq_true rfl)⟩
  | some reg =>
      obtain ⟨input, hinput⟩ := hheld reg rfl
      simp only [handleInRegister, cpu_ok hout, cpu_ok hinput, hmem, bind, Except.bind, pure,
        Except.pure]
      cases nullAllowed with
      | true =>
          refine ⟨_, rfl, tight_own (t := []) ?_⟩
          have := hclear input
          simp only [List.length_append, List.length_cons, List.length_nil]
          omega
      | false => exact ⟨_, rfl, tight_ofInstrs (Nat.le_of_ble_eq_true rfl)⟩

theorem handleInFrame_emits {dest slot : FrameOffset} (hdest : dest.value < 2 ^ 31)
    (hslot : slot.value < 2 ^ 31) (nullAllowed : Bool) :
    Emits (handleInFrame dest slot nullAllowed) [] 5 := by
  intro next
  simp only [handleInFrame, frameMem_ok hdest, frameMem_ok hslot, bind, Except.bind, pure,
    Except.pure]
  cases nullAllowed with
  | true => exact ⟨_, rfl, tight_own (t := [_]) (Nat.le_of_ble_eq_true rfl)⟩
  | false => exact ⟨_, rfl, tight_ofInstrs (Nat.le_of_ble_eq_true rfl)⟩

/-- A feasible move can be made, at its cost. -/
theorem argMove_emits {m : ArgMove} (h : m.Feasible .x86_64) : Emits (argMove m) [] m.cost := by
  cases m with
  | spillReference reg slot =>
      obtain ⟨⟨r, hr⟩, hslot⟩ := h
      intro next
      simp only [argMove, cpu_ok hr, frameMem_ok hslot]
      exact ⟨_, rfl, tight_ofInstrs (Nat.le_refl 1)⟩
  | storeToStack dest src size =>
      obtain ⟨hsrc, hsize, hdest⟩ := h
      obtain ⟨i, hi⟩ := storeTo_ok hsrc hsize (.base .rsp (Int32.ofNat dest.value))
      intro next
      simp only [argMove, frameMem_ok hdest, hi, bind, Except.bind]
      exact ⟨_, rfl, tight_ofInstrs (Nat.le_refl 1)⟩
  | handleToStack dest slot nullAllowed => exact handleInFrame_emits h.1 h.2.1 nullAllowed
  | copyToStack dest src size =>
      obtain ⟨hsize, hdest, hsrc⟩ := h
      obtain ⟨i, j, hcopy⟩ := copySlot_ok hdest hsrc hsize
      exact emits_instrs hcopy (Nat.le_refl 2)
  | moveToRegister dest src size =>
      obtain ⟨is, his, hlength⟩ := moveRegister_ok h size
      exact emits_instrs his hlength
  | handleToRegister dest slot held nullAllowed =>
      obtain ⟨hdest, hheld, hslot, -⟩ := h
      exact handleInRegister_emits hdest hheld hslot nullAllowed
  | loadToRegister dest src size =>
      obtain ⟨hdest, hsize, hsrc⟩ := h
      obtain ⟨i, hi⟩ := loadFrom_ok hdest hsize (.base .rsp (Int32.ofNat src.value))
      intro next
      simp only [argMove, frameMem_ok hsrc, hi, bind, Except.bind]
      exact ⟨_, rfl, tight_ofInstrs (Nat.le_refl 1)⟩

theorem adjustFrame_ok {adjust : Nat} (h : adjust % 16 = 0) (op : Arith) :
    ∃ is, adjustFrame op adjust = .ok is ∧ is.length ≤ 2 := by
  rw [adjustFrame, if_neg (not_not_intro h)]
  refine ⟨_, rfl, ?_⟩
  split <;> simp

end X86

-- =============================================================== ARM64

namespace A64

open Crossing.A64

theorem core_ok {r : Register} {reg : Reg}
    (h : r.a64View = .ok (.x reg) ∨ r.a64View = .ok (.w reg)) : r.core = .ok reg := by
  rcases h with h | h <;> rw [Register.core, h] <;> rfl

theorem imm32_ok {offset size : Nat} (hsize : size = 4 ∨ size = 8) (h : offset / size < 4096) :
    imm32 offset = .ok offset := by
  refine if_pos ?_
  rcases hsize with rfl | rfl <;> omega

theorem ofOffset_ok {offset size : Nat} (h : offset % size = 0 ∧ offset / size < 4096) :
    Scaled.ofOffset size offset = .ok ⟨⟨offset / size, h.2⟩⟩ := by
  rw [Scaled.ofOffset, dif_pos h.2, if_pos h.1]

theorem scaled_ok {offset size : Nat} (hsize : size = 4 ∨ size = 8)
    (h : offset % size = 0 ∧ offset / size < 4096) :
    scaled size offset = .ok ⟨⟨offset / size, h.2⟩⟩ := by
  rw [scaled, imm32_ok hsize h.2]
  exact ofOffset_ok h

theorem imm12_ok {offset : Nat} (h : offset < 4096) : Imm12.ofNat offset = .ok ⟨⟨offset, h⟩⟩ :=
  dif_pos h

section

variable {lse : Bool}

theorem storeTo_ok {src : Register}
    (hsrc : (Target.arm64 lse).Core src ∨ (Target.arm64 lse).Float src)
    {offset size : Nat} (hsize : size = 4 ∨ size = 8) (h : (Target.arm64 lse).Accesses size offset)
    (base : Reg) : ∃ i, storeTo base offset src size = .ok [i] := by
  have himm := imm32_ok hsize h.2
  have hoffset := ofOffset_ok h
  rcases hsrc with ⟨r, hr | hr⟩ | ⟨r, hr | hr⟩ <;> rcases hsize with rfl | rfl <;>
    simp only [storeTo, hr, himm, hoffset, bind, Except.bind] <;> exact ⟨_, rfl⟩

theorem loadFrom_ok {dest : Register}
    (hdest : (Target.arm64 lse).Core dest ∨ (Target.arm64 lse).Float dest)
    {offset size : Nat} (hsize : size = 4 ∨ size = 8) (h : (Target.arm64 lse).Accesses size offset)
    (base : Reg) : ∃ i, loadFrom dest base offset size = .ok [i] := by
  have himm := imm32_ok hsize h.2
  have hoffset := ofOffset_ok h
  rcases hdest with ⟨r, hr | hr⟩ | ⟨r, hr | hr⟩ <;> rcases hsize with rfl | rfl <;>
    simp only [loadFrom, hr, himm, hoffset, bind, Except.bind] <;> exact ⟨_, rfl⟩

theorem moveRegister_ok {dest src : Register}
    (h : (Target.arm64 lse).Core dest ∧ (Target.arm64 lse).Core src
      ∨ (Target.arm64 lse).Float dest ∧ (Target.arm64 lse).Float src) (size : Nat) :
    ∃ is, moveRegister dest src size = .ok is ∧ is.length ≤ 1 := by
  have hone : ∀ {c c' : Prop} [Decidable c] [Decidable c'] (i j : Instr),
      ∃ is, (if c then pure [] else if c' then pure [i] else pure [j] : Except Violation _) = .ok is
        ∧ is.length ≤ 1 := by
    intro c c' _ _ i j
    split
    · exact ⟨[], rfl, Nat.zero_le 1⟩
    · split
      · exact ⟨[i], rfl, Nat.le_refl 1⟩
      · exact ⟨[j], rfl, Nat.le_refl 1⟩
  rcases h with ⟨⟨d, hd | hd⟩, s, hs | hs⟩ | ⟨⟨d, hd | hd⟩, s, hs | hs⟩ <;>
    rw [moveRegister, hd, hs] <;> exact hone _ _

theorem copySlot_ok {dest src : FrameOffset} {size : Nat} (hsize : size = 4 ∨ size = 8)
    (hdest : (Target.arm64 lse).Accesses size dest.value)
    (hsrc : (Target.arm64 lse).Accesses size src.value) :
    ∃ i j, copySlot dest src size = .ok [i, j] := by
  have himm := imm32_ok hsize hdest.2
  have himm' := imm32_ok hsize hsrc.2
  have hoffset := ofOffset_ok hdest
  have hoffset' := ofOffset_ok hsrc
  rcases hsize with rfl | rfl <;>
    simp only [copySlot, himm, himm', hoffset, hoffset', bind, Except.bind] <;> exact ⟨_, _, rfl⟩

theorem handleInRegister_emits {dest : Register} {slot : FrameOffset} {held : Option Register}
    (hdest : (Target.arm64 lse).Core dest)
    (hheld : ∀ reg, held = some reg → (Target.arm64 lse).Core reg)
    (hslot : (Target.arm64 lse).Accesses 4 slot.value)
    (haddress : (Target.arm64 lse).Addresses slot.value) (nullAllowed : Bool) :
    Emits (handleInRegister dest slot held nullAllowed) [] 5 := by
  intro next
  obtain ⟨out, hout⟩ := hdest
  have himm := imm32_ok (.inl rfl) hslot.2
  have hoffset := ofOffset_ok hslot
  have hadd := imm12_ok haddress
  -- two labels of its own: one where the address is computed, one behind
  have htight : ∀ (setup : List Instr) (i j k l : Instr), setup.length ≤ 1 →
      Tight [] next 5 ⟨(setup ++ [i, j, k]).map .instr ++ [.bind next, .instr l, .bind (next + 1)],
        next + 2⟩ := by
    intro setup i j k l hsetup
    refine ⟨Nat.le_add_right next 2, ?_, ?_⟩
    · simp [List.range'_succ]
    · simp only [Item.count_append, Item.count_instrs, Item.count_bind, Item.count_instr,
        Item.count_nil, List.length_append, List.length_cons, List.length_nil]
      omega
  cases held with
  | none =>
      simp only [handleInRegister, core_ok hout, himm, hoffset, hadd, bind, Except.bind, pure,
        Except.pure]
      cases nullAllowed with
      | true => exact ⟨_, rfl, htight [_] _ _ _ _ (Nat.le_refl 1)⟩
      | false => exact ⟨_, rfl, tight_ofInstrs (Nat.le_of_ble_eq_true rfl)⟩
  | some reg =>
      obtain ⟨input, hinput⟩ := hheld reg rfl
      simp only [handleInRegister, core_ok hout, core_ok hinput, himm, hadd, bind, Except.bind,
        pure, Except.pure]
      cases nullAllowed with
      | true => exact ⟨_, rfl, htight [] _ _ _ _ (Nat.zero_le 1)⟩
      | false => exact ⟨_, rfl, tight_ofInstrs (Nat.le_of_ble_eq_true rfl)⟩

theorem handleInFrame_emits {dest slot : FrameOffset}
    (hdest : (Target.arm64 lse).Accesses 8 dest.value)
    (hslot : (Target.arm64 lse).Accesses 4 slot.value)
    (haddress : (Target.arm64 lse).Addresses slot.value) (nullAllowed : Bool) :
    Emits (handleInFrame dest slot nullAllowed) [] 5 := by
  intro next
  simp only [handleInFrame, imm32_ok (.inl rfl) hslot.2, ofOffset_ok hslot, imm12_ok haddress,
    scaled_ok (.inr rfl) hdest, bind, Except.bind, pure, Except.pure]
  cases nullAllowed with
  | true => exact ⟨_, rfl, tight_own (t := [_]) (Nat.le_of_ble_eq_true rfl)⟩
  | false => exact ⟨_, rfl, tight_ofInstrs (Nat.le_of_ble_eq_true rfl)⟩

/-- A feasible move can be made, at its cost. -/
theorem argMove_emits {m : ArgMove} (h : m.Feasible (.arm64 lse)) :
    Emits (argMove m) [] m.cost := by
  cases m with
  | spillReference reg slot =>
      obtain ⟨⟨r, hr⟩, hslot⟩ := h
      intro next
      simp only [argMove, core_ok hr, scaled_ok (.inl rfl) hslot]
      exact ⟨_, rfl, tight_ofInstrs (Nat.le_refl 1)⟩
  | storeToStack dest src size =>
      obtain ⟨hsrc, hsize, hdest⟩ := h
      obtain ⟨i, hi⟩ := storeTo_ok hsrc hsize hdest .sp
      exact emits_instrs hi (Nat.le_refl 1)
  | handleToStack dest slot nullAllowed =>
      exact handleInFrame_emits h.1 h.2.1 h.2.2 nullAllowed
  | copyToStack dest src size =>
      obtain ⟨hsize, hdest, hsrc⟩ := h
      obtain ⟨i, j, hcopy⟩ := copySlot_ok hsize hdest hsrc
      exact emits_instrs hcopy (Nat.le_refl 2)
  | moveToRegister dest src size =>
      obtain ⟨is, his, hlength⟩ := moveRegister_ok h size
      exact emits_instrs his hlength
  | handleToRegister dest slot held nullAllowed =>
      obtain ⟨hdest, hheld, hslot, haddress⟩ := h
      exact handleInRegister_emits hdest hheld hslot haddress nullAllowed
  | loadToRegister dest src size =>
      obtain ⟨hdest, hsize, hsrc⟩ := h
      obtain ⟨i, hi⟩ := loadFrom_ok hdest hsize hsrc .sp
      exact emits_instrs hi (Nat.le_refl 1)

end

theorem adjustFrame_ok {adjust : Nat} (h : adjust % 16 = 0 ∧ adjust < 2 ^ 24) (grow : Bool) :
    ∃ is, adjustFrame grow adjust = .ok is ∧ is.length ≤ 2 := by
  have hhalves : ∀ (high low : Reg → Reg → Imm12 → Instr) (imm : Imm24),
      (Instr.byHalves high low .sp .sp imm).length ≤ 2 := by
    intro high low imm
    unfold Instr.byHalves
    split
    split
    · exact Nat.le_of_ble_eq_true rfl
    · split <;> exact Nat.le_of_ble_eq_true rfl
  rw [adjustFrame, if_neg (not_not_intro h.1), adjustStack]
  split
  · exact ⟨[], rfl, Nat.zero_le 2⟩
  · have himm : imm32 adjust = .ok adjust := if_pos (Nat.lt_trans h.2 (by decide))
    have hlarge : Imm24.ofNat adjust = .ok ⟨⟨adjust, h.2⟩⟩ := dif_pos h.2
    rw [himm]
    simp only [bind, Except.bind, hlarge]
    refine ⟨_, rfl, ?_⟩
    split
    · exact hhalves _ _ _
    · exact hhalves _ _ _

/-- A move that was made hands over the address of a slot below 4096. -/
theorem argMove_addresses {m : ArgMove} {slot : FrameOffset} (hslot : m.handle? = some slot)
    (next : Nat) : Yields (argMove m next) fun _ => slot.value < 4096 := by
  have himm : ∀ n, Yields (Imm12.ofNat n) fun _ => n < 4096 := by
    intro n
    unfold Imm12.ofNat
    split
    · next h => exact yields_pure h
    · exact yields_error _
  have hsame : ∀ n m, imm32 n = .ok m → m = n := by
    intro n m hm
    unfold imm32 at hm
    split at hm
    · injection hm with hm
      exact hm.symm
    · cases hm
  cases m with
  | handleToStack dest slot' nullAllowed =>
      obtain rfl : slot' = slot := by injection hslot
      refine yields_bind fun n hn => ?_
      rw [hsame _ _ hn]
      refine yields_ite (fun _ => yields_bind fun _ _ => yields_bind fun imm hi => fun _ _ => ?_)
        fun _ => yields_bind fun imm hi => fun _ _ => ?_
      · exact himm _ imm hi
      · exact himm _ imm hi
  | handleToRegister dest slot' held nullAllowed =>
      obtain rfl : slot' = slot := by injection hslot
      refine yields_bind fun out _ => yields_bind fun n hn => ?_
      rw [hsame _ _ hn]
      cases held with
      | none =>
          refine yields_bind fun _ _ => yields_pure_bind (yields_bind fun imm hi => fun _ _ => ?_)
          exact himm _ imm hi
      | some reg =>
          refine yields_bind fun _ _ => yields_pure_bind (yields_bind fun imm hi => fun _ _ => ?_)
          exact himm _ imm hi
  | _ => cases hslot

/-- On ARM64 argument moves that were made address slots below 4096
only. -/
theorem moveArguments_addresses {lse : Bool} {dests sources : List Location}
    {slots : List FrameOffset} {next : Nat} :
    Yields (Assembler.lower (.arm64 lse) (.moveArguments dests sources slots) next) fun _ =>
      ∃ ms, ArgMove.plan .arm64 dests sources slots = .ok ms
        ∧ ∀ m ∈ ms, ∀ slot, m.handle? = some slot → slot.value < 4096 := by
  intro e he
  cases hlower : A64.lower lse (.moveArguments dests sources slots) next with
  | error v => simp only [Assembler.lower, hlower, Except.map] at he; cases he
  | ok code =>
      obtain ⟨ms, hplan, hmoves⟩ := bind_eq_ok hlower
      refine ⟨ms, hplan, fun m hm slot hslot => ?_⟩
      obtain ⟨next', e', hmove⟩ := Emission.concat_emitted ms next code hmoves m hm
      exact argMove_addresses hslot next' e' hmove

end A64

-- ========================================================== operations

namespace Target

variable {t : Target}

theorem lowers_store {offset : FrameOffset} {src : Register} {size : Nat}
    (hsrc : t.Core src ∨ t.Float src) (hsize : size = 4 ∨ size = 8)
    (h : t.Accesses size offset.value) : t.Lowers (.store offset src size) 1 := by
  cases t with
  | x86_64 =>
      obtain ⟨i, hi⟩ := X86.storeTo_ok hsrc hsize (.base .rsp (Int32.ofNat offset.value))
      refine lowers_x86 fun next => ?_
      simp only [X86.lower, X86.frameMem_ok h, hi, bind, Except.bind]
      exact ⟨_, rfl, Emission.tight_ofInstrs (Nat.le_refl 1)⟩
  | arm64 lse =>
      obtain ⟨i, hi⟩ := A64.storeTo_ok hsrc hsize h .sp
      exact lowers_arm64 (emits_instrs hi (Nat.le_refl 1))

theorem lowers_load {dest : Register} {offset : FrameOffset} {size : Nat}
    (hdest : t.Core dest ∨ t.Float dest) (hsize : size = 4 ∨ size = 8)
    (h : t.Accesses size offset.value) : t.Lowers (.load dest offset size) 1 := by
  cases t with
  | x86_64 =>
      obtain ⟨i, hi⟩ := X86.loadFrom_ok hdest hsize (.base .rsp (Int32.ofNat offset.value))
      refine lowers_x86 fun next => ?_
      simp only [X86.lower, X86.frameMem_ok h, hi, bind, Except.bind]
      exact ⟨_, rfl, Emission.tight_ofInstrs (Nat.le_refl 1)⟩
  | arm64 lse =>
      obtain ⟨i, hi⟩ := A64.loadFrom_ok hdest hsize h .sp
      exact lowers_arm64 (emits_instrs hi (Nat.le_refl 1))

theorem lowers_adjust {adjust : Nat} (h : t.Adjusts adjust) :
    t.Lowers (.increaseFrame adjust) 2 ∧ t.Lowers (.decreaseFrame adjust) 2 := by
  cases t with
  | x86_64 =>
      obtain ⟨is, his, hlength⟩ := X86.adjustFrame_ok h .sub
      obtain ⟨js, hjs, hlength'⟩ := X86.adjustFrame_ok h .add
      exact ⟨lowers_x86 (emits_instrs his hlength), lowers_x86 (emits_instrs hjs hlength')⟩
  | arm64 lse =>
      obtain ⟨is, his, hlength⟩ := A64.adjustFrame_ok h true
      obtain ⟨js, hjs, hlength'⟩ := A64.adjustFrame_ok h false
      exact ⟨lowers_arm64 (emits_instrs his hlength), lowers_arm64 (emits_instrs hjs hlength')⟩

/-- Arguments can be moved if a plan exists and each of its moves is
feasible. -/
theorem lowers_moveArguments {dests sources : List Location} {slots : List FrameOffset}
    {ms : List ArgMove} (hplan : ArgMove.plan t.registers dests sources slots = .ok ms)
    (h : ∀ m ∈ ms, m.Feasible t) :
    t.Lowers (.moveArguments dests sources slots) (ArgMove.weight ArgMove.cost ms) := by
  cases t with
  | x86_64 =>
      have hmoves := emits_concat ms fun m hm => X86.argMove_emits (h m hm)
      refine lowers_x86 fun next => ?_
      obtain ⟨e, he, htight⟩ := hmoves next
      have hplan' : ArgMove.plan .x86 dests sources slots = .ok ms := hplan
      simp only [X86.lower, hplan', bind, Except.bind]
      exact ⟨e, he, htight⟩
  | arm64 lse =>
      have hmoves := emits_concat ms fun m hm => A64.argMove_emits (h m hm)
      refine lowers_arm64 fun next => ?_
      obtain ⟨e, he, htight⟩ := hmoves next
      have hplan' : ArgMove.plan .arm64 dests sources slots = .ok ms := hplan
      simp only [A64.lower, hplan', bind, Except.bind]
      exact ⟨e, he, htight⟩

end Target

end Glue

end Crossing
