import Crossing.Proofs.Glue.Emission

/-
Glue operations on x86-64 emit closed code. Almost every operation is
straight-line code without a branch; what remains are the branches to the
labels an operation is given, and the null test of a reference handle,
which takes one label for itself and binds it.
-/
namespace Crossing.Glue.X86

open Crossing.X86 Emission

/-- The label an instruction branches to. -/
def branch (i : Instr) : Option Nat := i.field.map (·.label)

/-- An encoded instruction is what the assembler relies on: of all
instructions only the two jumps have a field, after their opcodes. -/
theorem encodes (i : Instr) : Target.x86_64.Encodes i.encode where
  size := Nat.one_dvd _
  inside f hf := by
    cases i with
    | jump l => cases hf; exact Nat.le_refl 5
    | jumpIf c l => cases hf; exact Nat.le_refl 6
    | _ => cases hf
  start f _ := Nat.one_dvd _
  kind f hf := by
    cases i with
    | jump l => cases hf; exact .inl rfl
    | jumpIf c l => cases hf; exact .inl rfl
    | _ => cases hf

-- ================================================== straight-line code

-- ---------------------------------------------------- stores and loads

theorem storeTo_straight (mem : Mem) (src : Register) (size : Nat) :
    Yields (storeTo mem src size) (Straight branch) := by
  refine yields_bind fun view _ => ?_
  cases view with
  | none =>
      dsimp only
      split
      · exact yields_pure straight_nil
      · exact yields_error _
  | cpu reg =>
      dsimp only
      split
      · exact yields_pure (straight_one rfl)
      · exact yields_pure (straight_one rfl)
      · exact yields_pure (straight_one rfl)
      · exact yields_pure (straight_one rfl)
      · exact yields_error _
  | xmm n =>
      dsimp only
      split
      · exact yields_pure (straight_one rfl)
      · exact yields_pure (straight_one rfl)
      · exact yields_error _

theorem loadFrom_straight (dest : Register) (mem : Mem) (size : Nat) :
    Yields (loadFrom dest mem size) (Straight branch) := by
  refine yields_bind fun view _ => ?_
  cases view with
  | none =>
      dsimp only
      split
      · exact yields_pure straight_nil
      · exact yields_error _
  | cpu reg =>
      dsimp only
      split
      · exact yields_pure (straight_one rfl)
      · exact yields_pure (straight_one rfl)
      · exact yields_pure (straight_one rfl)
      · exact yields_pure (straight_one rfl)
      · exact yields_error _
  | xmm n =>
      dsimp only
      split
      · exact yields_pure (straight_one rfl)
      · exact yields_pure (straight_one rfl)
      · exact yields_error _

-- --------------------------------------------------------------- moves

theorem moveRegister_straight (dest src : Register) (size : Nat) :
    Yields (moveRegister dest src size) (Straight branch) := by
  unfold moveRegister
  split
  · exact yields_pure straight_nil
  · refine yields_bind fun d _ => yields_bind fun s _ => ?_
    split
    · split
      · exact yields_pure (straight_one rfl)
      · exact yields_pure (straight_one rfl)
    · exact yields_pure (straight_one rfl)
    · exact yields_error _

theorem copySlot_straight (dest src : FrameOffset) (size : Nat) :
    Yields (copySlot dest src size) (Straight branch) := by
  unfold copySlot
  split
  · refine yields_bind fun _ _ => yields_bind fun _ _ => yields_pure ?_
    exact straight_cons rfl (straight_one rfl)
  · refine yields_bind fun _ _ => yields_bind fun _ _ => yields_pure ?_
    exact straight_cons rfl (straight_one rfl)
  · exact yields_error _

-- -------------------------------------------------------------- frames

theorem spillXmms_straight (xs : List Xmm) :
    ∀ top, Yields (spillXmms top xs) (Straight branch) := by
  induction xs with
  | nil => intro top; exact yields_pure straight_nil
  | cons x xs ih =>
      intro top
      refine yields_bind fun offset _ => yields_bind fun is his => yields_pure ?_
      exact straight_cons rfl (ih offset is his)

theorem unspillXmms_straight (xs : List Xmm) :
    ∀ offset, Straight branch (unspillXmms offset xs) := by
  induction xs with
  | nil => intro offset; exact straight_nil
  | cons x xs ih => intro offset; exact straight_cons rfl (ih _)

theorem buildFrame_straight (size : Nat) (method : Register) (saves : List Register) :
    Yields (buildFrame size method saves) (Straight branch) := by
  refine yields_ite (fun _ => yields_error _) fun _ => ?_
  refine yields_bind fun cpus _ => yields_bind fun xmms _ => yields_bind fun rest _ => ?_
  refine yields_bind fun spills hspills => ?_
  have hroom : Straight branch
      (if rest = 0 then [] else [Instr.arith .sub .rsp (Int32.ofNat rest)]) := by
    split
    · exact straight_nil
    · exact straight_one rfl
  have hpushes : Straight branch (cpus.map Instr.push) := straight_map (fun _ => rfl) cpus
  have hframe := straight_append (straight_append hpushes hroom)
    (spillXmms_straight xmms rest spills hspills)
  refine yields_ite (fun _ => yields_bind fun reg _ => yields_pure ?_) fun _ => yields_pure ?_
  · exact straight_append hframe (straight_one rfl)
  · exact straight_append hframe straight_nil

theorem removeFrame_straight (size : Nat) (saves : List Register) :
    Yields (removeFrame size saves) (Straight branch) := by
  refine yields_ite (fun _ => yields_error _) fun _ => ?_
  refine yields_bind fun low _ => yields_bind fun xmms _ => yields_bind fun cpus _ => ?_
  refine yields_bind fun rest _ => yields_pure ?_
  have hroom : Straight branch
      (if rest = 0 then [] else [Instr.arith .add .rsp (Int32.ofNat rest)]) := by
    split
    · exact straight_nil
    · exact straight_one rfl
  have hpops : Straight branch (cpus.map Instr.pop) := straight_map (fun _ => rfl) cpus
  have hloads := straight_append (unspillXmms_straight xmms low) hroom
  exact straight_append (straight_append hloads hpops) (straight_one rfl)

theorem adjustFrame_straight (op : Arith) (adjust : Nat) :
    Yields (adjustFrame op adjust) (Straight branch) := by
  refine yields_ite (fun _ => yields_error _) fun _ => yields_pure ?_
  split
  · exact straight_nil
  · exact straight_one rfl

-- ============================================================= handles

/-- The null test of a handle takes the next label and binds it after the
address. -/
theorem nullTest_closed {setup : List Instr} (hsetup : Straight branch setup) (out input : Reg)
    (mem : Mem) (given : List Nat) (next : Nat) :
    Closed branch given next
      ⟨(setup ++ (if out ≠ input then [Instr.xor out out] else [])
          ++ [Instr.testReg input input, .jumpIf .zero next, .lea out mem]).map .instr
          ++ [.bind next],
        next + 1⟩ := by
  have hclear : Straight branch (if out ≠ input then [Instr.xor out out] else []) := by
    split
    · exact straight_one rfl
    · exact straight_nil
  have htest : Within branch (next :: given)
      [.testReg input input, .jumpIf .zero next, .lea out mem] :=
    within_cons rfl (within_jump rfl (List.mem_cons_self ..) ((straight_one rfl).within _))
  exact closed_own (within_append ((straight_append hsetup hclear).within _) htest)
    (straight_nil.within _)

theorem handleInRegister_closed (dest : Register) (slot : FrameOffset) (held : Option Register)
    (nullAllowed : Bool) (given : List Nat) (next : Nat) :
    Yields (handleInRegister dest slot held nullAllowed next) (Closed branch given next) := by
  refine yields_bind fun out _ => ?_
  cases held with
  | none =>
      refine yields_bind fun held _ => yields_pure_bind (yields_bind fun mem _ => ?_)
      have hsetup : Straight branch [Instr.load .long out held] := straight_one rfl
      refine yields_ite (fun _ => yields_pure ?_) fun _ => yields_pure ?_
      · exact nullTest_closed hsetup out out mem given next
      · exact (straight_append hsetup (straight_one rfl)).closed given next
  | some r =>
      refine yields_bind fun input _ => yields_pure_bind (yields_bind fun mem _ => ?_)
      refine yields_ite (fun _ => yields_pure ?_) fun _ => yields_pure ?_
      · exact nullTest_closed straight_nil out input mem given next
      · exact (straight_one rfl).closed given next

theorem handleInFrame_closed (dest slot : FrameOffset) (nullAllowed : Bool) (given : List Nat)
    (next : Nat) : Yields (handleInFrame dest slot nullAllowed next) (Closed branch given next) := by
  refine yields_bind fun mem _ => yields_bind fun out _ => ?_
  refine yields_ite (fun _ => yields_pure ?_) fun _ => yields_pure ?_
  · refine closed_own (s := [_, _, _, _]) (t := [_])
      (within_cons rfl (within_cons rfl (within_jump rfl ?_ ?_))) ?_
    · exact List.mem_cons_self ..
    · exact (straight_one rfl).within _
    · exact (straight_one rfl).within _
  · exact (straight_cons rfl (straight_one rfl)).closed given next

theorem argMove_closed (given : List Nat) (m : ArgMove) (next : Nat) :
    Yields (argMove m next) (Closed branch given next) := by
  cases m with
  | spillReference reg slot =>
      refine yields_bind fun mem _ => yields_bind fun r _ => yields_pure ?_
      exact (straight_one rfl).closed given next
  | storeToStack dest src size =>
      exact yields_bind fun mem _ => yields_straight (storeTo_straight mem src size) given next
  | handleToStack dest slot nullAllowed =>
      exact handleInFrame_closed dest slot nullAllowed given next
  | copyToStack dest src size => exact yields_straight (copySlot_straight dest src size) given next
  | moveToRegister dest src size =>
      exact yields_straight (moveRegister_straight dest src size) given next
  | handleToRegister dest slot held nullAllowed =>
      exact handleInRegister_closed dest slot held nullAllowed given next
  | loadToRegister dest src size =>
      exact yields_bind fun mem _ => yields_straight (loadFrom_straight dest mem size) given next

-- ========================================================= transitions

theorem runnableToNative_within (slow : Nat) : Within branch [slow] (runnableToNative slow) := by
  refine within_cons rfl (within_cons rfl (within_cons rfl (within_jump rfl ?_ ?_)))
  · exact List.mem_singleton.mpr rfl
  · exact (straight_one rfl).within [slow]

theorem nativeToRunnable_within (slow : Nat) (scratch : List Register) (result : Register) :
    Yields (nativeToRunnable slow scratch result) (Within branch [slow]) := by
  -- the code is the same whether the result is kept or not, up to two moves
  have hcode (keep : Bool) (free saved : Reg) : Within branch [slow]
      ((if keep then [Instr.moveQuad saved .rax] else [])
        ++ [.loadImm .rax nativeWord, .xor free free, .lockCompareExchange flagsMem free]
        ++ (if keep then [Instr.moveQuad .rax saved] else [])
        ++ [.jumpIf .notZero slow, .load .quad free (slotMem .mutatorLock),
          .store .quad (slotMem .heldMutatorLock) free]) := by
    have hmove (d s : Reg) : Straight branch (if keep then [Instr.moveQuad d s] else []) := by
      cases keep with
      | false => exact straight_nil
      | true => exact straight_one rfl
    have hswap : Straight branch [.loadImm .rax nativeWord, .xor free free,
        .lockCompareExchange flagsMem free] :=
      straight_cons rfl (straight_cons rfl (straight_one rfl))
    have hexchange := straight_append (straight_append (hmove saved .rax) hswap) (hmove .rax saved)
    refine within_append (hexchange.within [slow]) (within_jump rfl ?_ ?_)
    · exact List.mem_singleton.mpr rfl
    · exact (straight_cons rfl (straight_one rfl)).within [slow]
  unfold nativeToRunnable
  split
  · next first second _ =>
    refine yields_bind fun free _ => yields_bind fun saved _ => ?_
    refine yields_ite (fun _ => yields_error _) fun _ => yields_ite (fun _ => ?_) fun _ => ?_
    · exact yields_bind fun _ _ => yields_pure (hcode _ free saved)
    · exact yields_pure (hcode false free saved)
  · exact yields_error _

-- ========================================================== operations

/-- Every operation emits closed code over the labels it names. -/
theorem lower_closed (op : Op) (next : Nat) :
    Yields (lower op next) (Closed branch (op.labels.map (·.index)) next) := by
  have hmem (l : Label) : l.index ∈ [l].map (·.index) := List.mem_singleton.mpr rfl
  have hnil (given : List Nat) : Within branch given [] := straight_nil.within given
  cases op with
  | buildFrame size method saves =>
      exact yields_straight (buildFrame_straight size method saves) [] next
  | removeFrame size saves maySuspend =>
      exact yields_straight (removeFrame_straight size saves) [] next
  | increaseFrame adjust => exact yields_straight (adjustFrame_straight .sub adjust) [] next
  | decreaseFrame adjust => exact yields_straight (adjustFrame_straight .add adjust) [] next
  | store offset src size =>
      exact yields_bind fun mem _ => yields_straight (storeTo_straight mem src size) [] next
  | storeToMember base offset src size =>
      exact yields_bind fun mem _ => yields_straight (storeTo_straight mem src size) [] next
  | storePointer offset src =>
      refine yields_bind fun mem _ => yields_bind fun reg _ => yields_pure ?_
      exact (straight_one rfl).closed [] next
  | storeStackPointer offset tag =>
      refine yields_bind fun mem _ => yields_ite (fun _ => yields_pure ?_) fun _ => yields_pure ?_
      · exact (straight_cons rfl (straight_cons rfl (straight_one rfl))).closed [] next
      · exact (straight_one rfl).closed [] next
  | load dest offset size =>
      exact yields_bind fun mem _ => yields_straight (loadFrom_straight dest mem size) [] next
  | loadFromMember dest base offset size =>
      exact yields_bind fun mem _ => yields_straight (loadFrom_straight dest mem size) [] next
  | loadPointerFromThread dest offset =>
      refine yields_bind fun reg _ => yields_bind fun mem _ => yields_pure ?_
      exact (straight_one rfl).closed [] next
  | loadRoot dest base offset =>
      refine yields_bind fun reg _ => yields_bind fun mem _ => yields_pure ?_
      exact (straight_one rfl).closed [] next
  | moveArguments dests sources slots =>
      exact yields_bind fun moves _ => closed_concat (argMove_closed []) moves next
  | move dest src size => exact yields_straight (moveRegister_straight dest src size) [] next
  | loadImmediate dest value =>
      exact yields_bind fun reg _ => yields_pure ((straight_one rfl).closed [] next)
  | copy dest src size => exact yields_straight (copySlot_straight dest src size) [] next
  | signExtend reg size =>
      refine yields_bind fun r _ => ?_
      dsimp only
      split
      · exact yields_pure ((straight_one rfl).closed [] next)
      · exact yields_pure ((straight_one rfl).closed [] next)
      · exact yields_error _
  | zeroExtend reg size =>
      refine yields_bind fun r _ => ?_
      dsimp only
      split
      · exact yields_pure ((straight_one rfl).closed [] next)
      · exact yields_pure ((straight_one rfl).closed [] next)
      · exact yields_error _
  | currentThread dest =>
      exact yields_bind fun reg _ => yields_pure ((straight_one rfl).closed [] next)
  | currentThreadToFrame dest =>
      refine yields_bind fun mem _ => yields_pure ?_
      exact (straight_cons rfl (straight_one rfl)).closed [] next
  | decodeReference reg slow resume =>
      refine yields_bind fun r _ => yields_pure (closed_ofInstrs ?_)
      refine within_cons rfl (within_jump rfl ?_ (within_cons rfl (within_jump rfl ?_ ?_)))
      · exact List.mem_cons_self ..
      · exact List.mem_cons_of_mem _ (List.mem_cons_self ..)
      · exact (straight_one rfl).within _
  | verifyObject src couldBeNull => exact yields_pure (straight_nil.closed [] next)
  | jumpTo base offset =>
      exact yields_bind fun mem _ => yields_pure ((straight_one rfl).closed [] next)
  | call base offset =>
      exact yields_bind fun mem _ => yields_pure ((straight_one rfl).closed [] next)
  | callFromThread offset =>
      exact yields_bind fun mem _ => yields_pure ((straight_one rfl).closed [] next)
  | runnableToNative slow scratch =>
      exact yields_pure (closed_ofInstrs (runnableToNative_within slow.index))
  | nativeToRunnable slow scratch result =>
      refine yields_bind fun is his => yields_pure (closed_ofInstrs ?_)
      exact nativeToRunnable_within slow.index scratch result is his
  | suspendCheck slow =>
      exact yields_pure (closed_ofInstrs (within_cons rfl (within_jump rfl (hmem slow) (hnil _))))
  | exceptionPoll slow =>
      exact yields_pure (closed_ofInstrs (within_cons rfl (within_jump rfl (hmem slow) (hnil _))))
  | deliverException =>
      refine yields_pure (Straight.closed ?_ [] next)
      exact straight_cons rfl (straight_cons rfl (straight_one rfl))
  | jump target => exact yields_pure (closed_ofInstrs (within_jump rfl (hmem target) (hnil _)))
  | testMarking target test =>
      exact yields_pure (closed_ofInstrs (within_cons rfl (within_jump rfl (hmem target) (hnil _))))
  | testMarkBit reference target test =>
      refine yields_bind fun mem _ => yields_pure (closed_ofInstrs ?_)
      exact within_cons rfl (within_jump rfl (hmem target) (hnil _))
  | testByte address target =>
      refine yields_pure (closed_ofInstrs ?_)
      exact within_cons rfl (within_cons rfl (within_jump rfl (hmem target) (hnil _)))
  | bind label =>
      refine yields_pure ⟨Nat.le_refl next, fun i hi => absurd hi (by simp), fun l hlo hhi => ?_⟩
      exact absurd hhi (Nat.not_lt.mpr hlo)

end Crossing.Glue.X86
