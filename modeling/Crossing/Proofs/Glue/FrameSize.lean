import Crossing.Proofs.Glue.Program

/-
The size of the frame, as an assembler keeps it. On x86-64 a frame is
counted while it is built (the return address, each push, the rest) and the
count is held against the size that was asked for; every frame that can be
built passes (`X86.cfaOfFrame_eq`). Of the other operations only those that
adjust or remove a frame count, and an assembler has counted them all
(`Assembler.applyAll_counted`).
-/
namespace Crossing.Glue

-- ==================================================== building a frame

namespace X86

/-- Each push is one word more. -/
theorem foldlM_pushes (cpus : List Crossing.X86.Reg) : ∀ cfa,
    cfa + 8 * cpus.length < wordLimit →
      cpus.foldlM (fun cfa _ => addWord cfa wordSize) cfa = .ok (cfa + 8 * cpus.length) := by
  induction cpus with
  | nil => exact fun _ _ => rfl
  | cons reg cpus ih =>
      intro cfa hlt
      rw [List.length_cons] at hlt ⊢
      have hpush : addWord cfa wordSize = .ok (cfa + 8) := if_pos (by rw [wordSize]; omega)
      rw [List.foldlM_cons, hpush]
      refine (ih (cfa + 8) (by omega)).trans (congrArg _ ?_)
      omega

/-- The rest of a frame is what pushes and return address leave of it. -/
theorem restOfFrame_add (size pushes : Nat) :
    Yields (restOfFrame size pushes) fun rest => 8 + 8 * pushes + rest = size := by
  intro rest h
  obtain ⟨below, hbelow, h⟩ := bind_eq_ok h
  unfold subWord wordSize at hbelow h
  split at hbelow
  · cases hbelow
    split at h
    · cases h
      omega
    · cases h
  · cases hbelow

/-- The count agrees with the size of every frame that can be built. -/
theorem cfaOfFrame_eq {size : Nat} (hsize : size < wordLimit) (method : Register)
    (saves : List Register) :
    Yields (buildFrame size method saves) fun _ => cfaOfFrame size saves = .ok size := by
  refine yields_ite (fun _ => yields_error _) fun _ => yields_bind fun cpus hcpus =>
    yields_bind fun _ _ => yields_bind fun rest hrest => fun _ _ => ?_
  have hadd : 8 + 8 * cpus.length + rest = size := restOfFrame_add _ _ rest hrest
  have hpushed := foldlM_pushes cpus wordSize (by rw [wordSize]; omega)
  have hlast : addWord (8 + 8 * cpus.length) rest = .ok size := hadd ▸ if_pos (hadd ▸ hsize)
  simp only [cfaOfFrame, hcpus, hpushed, hrest, bind, Except.bind]
  split
  · next hnone =>
      have hsame : wordSize + 8 * cpus.length = size := by rw [wordSize]; omega
      simp only [pure, Except.pure, hsame, ne_eq, not_true_eq_false, if_false]
  · simp only [wordSize, hlast, ne_eq, not_true_eq_false, if_false]
    rfl

end X86

namespace Assembler

/-- Whatever the target, an assembler that can build a frame has counted its
size. -/
theorem cfaAfter_buildFrame {size : Nat} (hsize : size < wordLimit) (t : Target)
    (method : Register) (saves : List Register) (next : Nat) :
    Yields (lower t (.buildFrame size method saves) next) fun _ =>
      cfaAfter t 0 (.buildFrame size method saves) = .ok size := by
  cases t with
  | x86_64 =>
      refine yields_map fun e he => ?_
      obtain ⟨is, his, -⟩ := bind_eq_ok he
      exact X86.cfaOfFrame_eq hsize method saves is his
  | arm64 lse =>
      intro e _
      show addWord 0 size = _
      rw [addWord, if_pos (by omega), Nat.zero_add]

-- ================================================== the other operations

/-- Operations that change the size of the frame. -/
def adjustsFrame : Op → Bool
  | .buildFrame .. | .removeFrame .. | .increaseFrame _ | .decreaseFrame _ => true
  | _ => false

/-- Only those count for the size of the frame. -/
theorem cfa_filter (t : Target) (ops : List Op) : ∀ cfa,
    ops.foldlM (cfaAfter t) cfa = (ops.filter adjustsFrame).foldlM (cfaAfter t) cfa := by
  induction ops with
  | nil => exact fun _ => rfl
  | cons op ops ih =>
      intro cfa
      cases hop : adjustsFrame op with
      | true =>
          rw [List.filter_cons_of_pos hop, List.foldlM_cons, List.foldlM_cons]
          exact congrArg _ (funext ih)
      | false =>
          have hkeep : cfaAfter t cfa op = .ok cfa := by
            cases t <;> cases op <;> first | rfl | cases hop
          rw [List.filter_cons_of_neg (by rw [hop]; decide), List.foldlM_cons, hkeep]
          exact ih cfa

-- ================================================================ runs

/-- What an assembler has counted is what its operations come to. -/
theorem applyAll_counted (ops : List Op) : ∀ a : Assembler,
    Yields (a.applyAll ops) fun a' => a'.target = a.target
      ∧ ops.foldlM (cfaAfter a.target) a.cfaOffset = .ok a'.cfaOffset := by
  induction ops with
  | nil => exact fun a => yields_pure ⟨rfl, rfl⟩
  | cons op ops ih =>
      intro a
      rw [applyAll, List.foldlM_cons]
      refine yields_bind fun a₁ ha₁ => fun a' ha' => ?_
      obtain ⟨-, e, -, -, htarget, -, -, hcfa⟩ := apply_eq_ok ha₁
      obtain ⟨hkept, hcount⟩ := ih a₁ a' ha'
      refine ⟨hkept.trans htarget, ?_⟩
      rw [List.foldlM_cons, hcfa]
      exact htarget ▸ hcount

/-- Operations can be carried out in two goes. -/
theorem applyAll_append (a : Assembler) (ops ops' : List Op) :
    a.applyAll (ops ++ ops') = a.applyAll ops >>= fun a₁ => a₁.applyAll ops' :=
  List.foldlM_append

end Assembler

end Crossing.Glue
