import Crossing.Proofs.Glue.Emission

/-
Glue operations on ARM64 emit closed code. Besides the branches to given
labels there are three places that take labels for themselves: the null
test of a handle in a register (two labels), the null test of a handle in
the frame (one), and the retry loop of a state transition on machines
without single-instruction compare-and-swap (one, bound before the loop).
-/
namespace Crossing.Glue.A64

open Crossing.A64 Emission

/-- The label an instruction branches to. -/
def branch (i : Instr) : Option Nat := i.field.map (·.label)

/-- An encoded instruction is what the assembler relies on: one word, the
whole of which is the field of a branch. -/
theorem encodes (lse : Bool) (i : Instr) : (Target.arm64 lse).Encodes i.encode where
  size := by
    rw [Instr.encode, Code.littleEndian_length]
    exact Nat.dvd_refl 4
  inside f hf := by
    rw [Instr.encode, Code.littleEndian_length]
    cases i with
    | b l => cases hf; exact Nat.le_refl 4
    | bCond c l => cases hf; exact Nat.le_refl 4
    | cbz rt wide l => cases hf; exact Nat.le_refl 4
    | cbnz rt wide l => cases hf; exact Nat.le_refl 4
    | _ => cases hf
  start f hf := by
    cases i with
    | b l => cases hf; exact Nat.dvd_zero 4
    | bCond c l => cases hf; exact Nat.dvd_zero 4
    | cbz rt wide l => cases hf; exact Nat.dvd_zero 4
    | cbnz rt wide l => cases hf; exact Nat.dvd_zero 4
    | _ => cases hf
  kind _ _ := .inr rfl

-- ================================================== straight-line code

theorem move_branch (rd rm : Reg) : branch (Instr.move rd rm) = none := by
  unfold Instr.move
  split
  · rfl
  · rfl

theorem loadImm32_straight (rd : Reg) (value : UInt32) :
    Straight branch (Instr.loadImm32 rd value) := by
  unfold Instr.loadImm32
  dsimp only
  split
  · exact straight_one rfl
  · split
    · exact straight_one rfl
    · exact straight_cons rfl (straight_one rfl)

theorem loadImm64_straight (rd : Reg) (value : UInt64) :
    Straight branch (Instr.loadImm64 rd value) := by
  unfold Instr.loadImm64
  split
  · exact straight_one rfl
  · exact straight_cons rfl (straight_map (fun _ => rfl) _)

/-- Adding or subtracting by halves is straight-line code if the halves
are. -/
theorem byHalves_straight {high low : Reg → Reg → Imm12 → Instr}
    (hhigh : ∀ rd rn imm, branch (high rd rn imm) = none)
    (hlow : ∀ rd rn imm, branch (low rd rn imm) = none) (rd rn : Reg) (imm : Imm24) :
    Straight branch (Instr.byHalves high low rd rn imm) := by
  unfold Instr.byHalves
  dsimp only
  split
  · exact straight_one (hlow ..)
  · split
    · exact straight_one (hhigh ..)
    · exact straight_cons (hhigh ..) (straight_one (hlow ..))

-- ---------------------------------------------------- stores and loads

/-- One instruction with a checked operand. -/
theorem yields_one {α : Type} {x : Except Violation α} {f : α → Instr}
    (h : ∀ a, branch (f a) = none) : Yields (x >>= fun a => pure [f a]) (Straight branch) :=
  yields_bind fun a _ => yields_pure (straight_one (h a))

theorem storeTo_straight (base : Reg) (offset : Nat) (src : Register) (size : Nat) :
    Yields (storeTo base offset src size) (Straight branch) := by
  refine yields_bind fun view _ => yields_bind fun imm _ => ?_
  split
  · exact yields_ite (fun _ => yields_pure straight_nil) fun _ => yields_error _
  · split
    · exact yields_one fun _ => rfl
    · exact yields_one fun _ => rfl
    · exact yields_one fun _ => rfl
    · exact yields_one fun _ => rfl
    · exact yields_error _
  · split
    · exact yields_one fun _ => rfl
    · exact yields_one fun _ => rfl
    · exact yields_one fun _ => rfl
    · exact yields_one fun _ => rfl
    · exact yields_error _
  · split
    · exact yields_one fun _ => rfl
    · exact yields_one fun _ => rfl
    · exact yields_error _
  · split
    · exact yields_one fun _ => rfl
    · exact yields_one fun _ => rfl
    · exact yields_error _

theorem loadFrom_straight (dest : Register) (base : Reg) (offset size : Nat) :
    Yields (loadFrom dest base offset size) (Straight branch) := by
  refine yields_bind fun view _ => yields_bind fun imm _ => ?_
  split
  · exact yields_ite (fun _ => yields_pure straight_nil) fun _ => yields_error _
  · split
    · exact yields_one fun _ => rfl
    · exact yields_one fun _ => rfl
    · exact yields_one fun _ => rfl
    · exact yields_one fun _ => rfl
    · exact yields_error _
  · split
    · exact yields_one fun _ => rfl
    · exact yields_one fun _ => rfl
    · exact yields_one fun _ => rfl
    · exact yields_one fun _ => rfl
    · exact yields_error _
  · split
    · exact yields_one fun _ => rfl
    · exact yields_one fun _ => rfl
    · exact yields_error _
  · split
    · exact yields_one fun _ => rfl
    · exact yields_one fun _ => rfl
    · exact yields_error _

-- --------------------------------------------------------------- moves

theorem moveRegister_straight (dest src : Register) (size : Nat) :
    Yields (moveRegister dest src size) (Straight branch) := by
  have hcore (d s : Reg) : Yields (if d = s then pure [] else
      if size = 8 then pure [Instr.move d s] else pure [Instr.moveW d s]) (Straight branch) := by
    refine yields_ite (fun _ => yields_pure straight_nil) fun _ => ?_
    refine yields_ite (fun _ => yields_pure ?_) fun _ => yields_pure ?_
    · exact straight_one (move_branch d s)
    · exact straight_one rfl
  have hfp (d s : Fin 32) : Yields (if d = s then pure [] else
      if size = 8 then pure [Instr.fmovD ⟨UInt8.ofNat d⟩ ⟨UInt8.ofNat s⟩]
      else pure [Instr.fmovS ⟨UInt8.ofNat d⟩ ⟨UInt8.ofNat s⟩]) (Straight branch) := by
    refine yields_ite (fun _ => yields_pure straight_nil) fun _ => ?_
    refine yields_ite (fun _ => yields_pure ?_) fun _ => yields_pure ?_
    · exact straight_one rfl
    · exact straight_one rfl
  refine yields_bind fun d _ => yields_bind fun s _ => ?_
  split
  · exact hcore _ _
  · exact hcore _ _
  · exact hcore _ _
  · exact hcore _ _
  · exact hfp _ _
  · exact hfp _ _
  · exact hfp _ _
  · exact hfp _ _
  · exact yields_error _

theorem copySlot_straight (dest src : FrameOffset) (size : Nat) :
    Yields (copySlot dest src size) (Straight branch) := by
  refine yields_bind fun d _ => yields_bind fun s _ => ?_
  split
  · refine yields_bind fun _ _ => yields_bind fun _ _ => yields_pure ?_
    exact straight_cons rfl (straight_one rfl)
  · refine yields_bind fun _ _ => yields_bind fun _ _ => yields_pure ?_
    exact straight_cons rfl (straight_one rfl)
  · exact yields_error _

-- -------------------------------------------------------------- frames

theorem inPairs_straight {ρ : Type} {pair : ρ → ρ → Reg → PairOffset → Instr}
    {single : ρ → Reg → Scaled 8 → Instr} (hpair : ∀ a b r o, branch (pair a b r o) = none)
    (hsingle : ∀ a r o, branch (single a r o) = none) (offset : Nat) (rs : List ρ) :
    Yields (inPairs pair single offset rs) (Straight branch) := by
  fun_induction inPairs pair single offset rs with
  | case1 offset => exact yields_pure straight_nil
  | case2 offset a => exact yields_bind fun _ _ => yields_pure (straight_one (hsingle ..))
  | case3 offset a b rest ih =>
      refine yields_bind fun place _ => yields_bind fun is his => yields_pure ?_
      exact straight_cons (hpair ..) (ih is his)

theorem adjustStack_straight (grow : Bool) (adjust : Nat) :
    Yields (adjustStack grow adjust) (Straight branch) := by
  refine yields_ite (fun _ => yields_pure straight_nil) fun _ => ?_
  refine yields_bind fun n _ => yields_bind fun imm _ => yields_pure ?_
  split
  · refine byHalves_straight ?_ ?_ .sp .sp imm
    · exact fun _ _ _ => rfl
    · exact fun _ _ _ => rfl
  · refine byHalves_straight ?_ ?_ .sp .sp imm
    · exact fun _ _ _ => rfl
    · exact fun _ _ _ => rfl

theorem buildFrame_straight (size : Nat) (method : Register) (saves : List Register) :
    Yields (buildFrame size method saves) (Straight branch) := by
  refine yields_ite (fun _ => yields_error _) fun _ => yields_bind fun split _ => ?_
  obtain ⟨cores, fps⟩ := split
  refine yields_ite (fun _ => yields_error _) fun _ => yields_bind fun room hroom => ?_
  refine yields_bind fun coreSpills hcore => yields_bind fun fpSpills hfp => ?_
  have hframe := straight_append (straight_append (adjustStack_straight true size room hroom)
    (inPairs_straight (fun _ _ _ _ => rfl) (fun _ _ _ => rfl) _ _ coreSpills hcore))
    (inPairs_straight (fun _ _ _ _ => rfl) (fun _ _ _ => rfl) _ _ fpSpills hfp)
  refine yields_ite (fun _ => yields_bind fun reg _ => yields_pure ?_) fun _ => yields_pure ?_
  · exact straight_append hframe (straight_one rfl)
  · exact straight_append hframe straight_nil

theorem removeFrame_straight (size : Nat) (saves : List Register) (maySuspend : Bool) :
    Yields (removeFrame size saves maySuspend) (Straight branch) := by
  refine yields_ite (fun _ => yields_error _) fun _ => yields_bind fun split _ => ?_
  obtain ⟨cores, fps⟩ := split
  refine yields_bind fun coreBase _ => yields_bind fun coreLoads hcore => ?_
  refine yields_bind fun fpBase _ => yields_bind fun fpLoads hfp => ?_
  refine yields_bind fun room hroom => yields_pure ?_
  have hrefresh : Straight branch
      (if maySuspend then [Instr.ldrW .marking .thread markingImm] else []) := by
    split
    · exact straight_one rfl
    · exact straight_nil
  have hloads := straight_append
    (inPairs_straight (fun _ _ _ _ => rfl) (fun _ _ _ => rfl) _ _ coreLoads hcore)
    (inPairs_straight (fun _ _ _ _ => rfl) (fun _ _ _ => rfl) _ _ fpLoads hfp)
  exact straight_append (straight_append (straight_append hloads hrefresh)
    (adjustStack_straight false size room hroom)) (straight_one rfl)

theorem adjustFrame_straight (grow : Bool) (adjust : Nat) :
    Yields (adjustFrame grow adjust) (Straight branch) :=
  yields_ite (fun _ => yields_error _) fun _ => adjustStack_straight grow adjust

-- ============================================================= handles

/-- The null test of a handle takes two labels: one for the address, one
behind it. -/
theorem nullTest_closed {setup : List Instr} (hsetup : Straight branch setup) (out input : Reg)
    {address : Instr} (haddress : branch address = none) (given : List Nat) (next : Nat) :
    Closed branch given next
      ⟨(setup ++ [Instr.cbnz input false next, .movz out 0 0, .b (next + 1)]).map .instr
          ++ [.bind next, .instr address, .bind (next + 1)], next + 2⟩ where
  grows := Nat.le_add_right next 2
  branches i hi l hl := by
    simp only [List.mem_append, List.mem_map, List.mem_cons, Item.instr.injEq, exists_eq_right,
      reduceCtorEq, false_or, or_false, List.not_mem_nil] at hi
    rcases hi with (hi | rfl | rfl | rfl) | rfl
    · rw [hsetup i hi] at hl; cases hl
    · cases hl; exact .inr ⟨Nat.le_refl next, Nat.lt_add_of_pos_right (by decide)⟩
    · cases hl
    · cases hl; exact .inr ⟨Nat.le_succ next, Nat.lt_succ_self (next + 1)⟩
    · rw [haddress] at hl; cases hl
  bound l hlo hhi := by
    have hcases : l = next ∨ l = next + 1 := by
      have : l < next + 2 := hhi
      omega
    rcases hcases with rfl | rfl
    · simp
    · simp

theorem handleInRegister_closed (dest : Register) (slot : FrameOffset) (held : Option Register)
    (nullAllowed : Bool) (given : List Nat) (next : Nat) :
    Yields (handleInRegister dest slot held nullAllowed next) (Closed branch given next) := by
  refine yields_bind fun out _ => yields_bind fun offset _ => ?_
  cases held with
  | none =>
      refine yields_bind fun place _ => yields_pure_bind (yields_bind fun imm _ => ?_)
      have hsetup : Straight branch [Instr.ldrW out .sp place] := straight_one rfl
      refine yields_ite (fun _ => yields_pure ?_) fun _ => yields_pure ?_
      · exact nullTest_closed hsetup out out rfl given next
      · exact (straight_append hsetup (straight_one rfl)).closed given next
  | some r =>
      refine yields_bind fun input _ => yields_pure_bind (yields_bind fun imm _ => ?_)
      refine yields_ite (fun _ => yields_pure ?_) fun _ => yields_pure ?_
      · exact nullTest_closed straight_nil out input rfl given next
      · exact (straight_one rfl).closed given next

theorem handleInFrame_closed (dest slot : FrameOffset) (nullAllowed : Bool) (given : List Nat)
    (next : Nat) : Yields (handleInFrame dest slot nullAllowed next) (Closed branch given next) := by
  refine yields_bind fun offset _ => ?_
  refine yields_ite (fun _ => ?_) fun _ => ?_
  · refine yields_bind fun place _ => yields_bind fun imm _ => ?_
    refine yields_bind fun target _ => yields_pure ?_
    refine closed_own (s := [_, _, _]) (t := [_]) (within_cons rfl (within_jump rfl ?_ ?_)) ?_
    · exact List.mem_cons_self ..
    · exact (straight_one rfl).within _
    · exact (straight_one rfl).within _
  · refine yields_bind fun imm _ => yields_bind fun target _ => yields_pure ?_
    exact (straight_cons rfl (straight_one rfl)).closed given next

theorem argMove_closed (given : List Nat) (m : ArgMove) (next : Nat) :
    Yields (argMove m next) (Closed branch given next) := by
  cases m with
  | spillReference reg slot =>
      refine yields_bind fun rt _ => yields_bind fun place _ => yields_pure ?_
      exact (straight_one rfl).closed given next
  | storeToStack dest src size =>
      exact yields_straight (storeTo_straight .sp dest.value src size) given next
  | handleToStack dest slot nullAllowed =>
      exact handleInFrame_closed dest slot nullAllowed given next
  | copyToStack dest src size => exact yields_straight (copySlot_straight dest src size) given next
  | moveToRegister dest src size =>
      exact yields_straight (moveRegister_straight dest src size) given next
  | handleToRegister dest slot held nullAllowed =>
      exact handleInRegister_closed dest slot held nullAllowed given next
  | loadToRegister dest src size =>
      exact yields_straight (loadFrom_straight dest .sp src.value size) given next

-- ========================================================= transitions

/-- With compare-and-swap the transition is one attempt; without, a loop
around a label of its own. -/
theorem runnableToNative_closed (lse : Bool) (slow next : Nat) :
    (runnableToNative lse slow next).Closed branch [slow] next := by
  have hslow : slow ∈ [slow] := List.mem_singleton.mpr rfl
  unfold runnableToNative
  dsimp only
  split
  · refine closed_ofInstrs (within_append (Straight.within ?_ _) ?_)
    · exact straight_append (loadImm32_straight _ _) (loadImm32_straight _ _)
    · exact within_cons rfl (within_jump rfl hslow ((straight_one rfl).within _))
  · refine closed_own (s := []) (straight_nil.within _) (within_append (Straight.within ?_ _) ?_)
    · exact straight_append (straight_one rfl) (loadImm32_straight _ _)
    · refine within_jump rfl (List.mem_cons_of_mem _ hslow) (within_cons rfl ?_)
      exact within_jump rfl (List.mem_cons_self ..) ((straight_one rfl).within _)

theorem nativeToRunnable_closed (lse : Bool) (slow next : Nat) :
    (nativeToRunnable lse slow next).Closed branch [slow] next := by
  have hslow : slow ∈ [slow] := List.mem_singleton.mpr rfl
  unfold nativeToRunnable
  dsimp only
  have hacquire : Straight branch [Instr.ldrX .ip0 .thread (slotImm .mutatorLock),
      .strX .ip0 .thread (slotImm .heldMutatorLock)] := straight_cons rfl (straight_one rfl)
  split
  · refine closed_ofInstrs (within_append (within_append (Straight.within ?_ _) ?_)
      (hacquire.within _))
    · exact straight_append (straight_append (loadImm32_straight _ _) (straight_one rfl))
        (loadImm32_straight _ _)
    · exact within_cons rfl (within_jump rfl hslow (straight_nil.within _))
  · refine closed_own (s := []) (straight_nil.within _)
      (within_append (within_append (Straight.within ?_ _) ?_) (hacquire.within _))
    · exact straight_append (straight_one rfl) (loadImm32_straight _ _)
    · refine within_cons rfl (within_jump rfl (List.mem_cons_of_mem _ hslow) ?_)
      exact within_cons rfl (within_jump rfl (List.mem_cons_self ..) (straight_nil.within _))

-- ========================================================== operations

/-- Every operation emits closed code over the labels it names. -/
theorem lower_closed (lse : Bool) (op : Op) (next : Nat) :
    Yields (lower lse op next) (Closed branch (op.labels.map (·.index)) next) := by
  have hmem (l : Label) : l.index ∈ [l].map (·.index) := List.mem_singleton.mpr rfl
  have hnil (given : List Nat) : Within branch given [] := straight_nil.within given
  cases op with
  | buildFrame size method saves =>
      exact yields_straight (buildFrame_straight size method saves) [] next
  | removeFrame size saves maySuspend =>
      exact yields_straight (removeFrame_straight size saves maySuspend) [] next
  | increaseFrame adjust => exact yields_straight (adjustFrame_straight true adjust) [] next
  | decreaseFrame adjust => exact yields_straight (adjustFrame_straight false adjust) [] next
  | store offset src size =>
      exact yields_straight (storeTo_straight .sp offset.value src size) [] next
  | storeToMember base offset src size =>
      exact yields_bind fun r _ => yields_straight (storeTo_straight r offset.value src size) [] next
  | storePointer offset src =>
      refine yields_bind fun rt _ => yields_bind fun place _ => yields_pure ?_
      exact (straight_one rfl).closed [] next
  | storeStackPointer offset tag =>
      refine yields_bind fun place _ => yields_pure (Straight.closed ?_ [] next)
      refine straight_append (straight_append (straight_one (move_branch _ _)) ?_) (straight_one rfl)
      split
      · exact straight_one rfl
      · exact straight_nil
  | load dest offset size =>
      exact yields_straight (loadFrom_straight dest .sp offset.value size) [] next
  | loadFromMember dest base offset size =>
      exact yields_bind fun r _ => yields_straight (loadFrom_straight dest r offset.value size) [] next
  | loadPointerFromThread dest offset =>
      refine yields_bind fun rt _ => yields_bind fun place _ => yields_pure ?_
      exact (straight_one rfl).closed [] next
  | loadRoot dest base offset =>
      refine yields_bind fun rt _ => yields_bind fun rn _ => yields_bind fun place _ => ?_
      exact yields_pure ((straight_one rfl).closed [] next)
  | moveArguments dests sources slots =>
      exact yields_bind fun moves _ => closed_concat (argMove_closed []) moves next
  | move dest src size => exact yields_straight (moveRegister_straight dest src size) [] next
  | loadImmediate dest value =>
      exact yields_bind fun rd _ => yields_pure ((loadImm64_straight rd value).closed [] next)
  | copy dest src size => exact yields_straight (copySlot_straight dest src size) [] next
  | signExtend reg size =>
      refine yields_bind fun r _ => ?_
      split
      · exact yields_pure ((straight_one rfl).closed [] next)
      · exact yields_pure ((straight_one rfl).closed [] next)
      · exact yields_error _
  | zeroExtend reg size =>
      refine yields_bind fun r _ => ?_
      split
      · exact yields_pure ((straight_one rfl).closed [] next)
      · exact yields_pure ((straight_one rfl).closed [] next)
      · exact yields_error _
  | currentThread dest =>
      refine yields_bind fun rd _ => yields_pure ?_
      exact (straight_one (move_branch rd .thread)).closed [] next
  | currentThreadToFrame dest =>
      exact yields_bind fun place _ => yields_pure ((straight_one rfl).closed [] next)
  | decodeReference reg slow resume =>
      refine yields_bind fun r _ => yields_pure (closed_ofInstrs ?_)
      refine within_cons rfl (within_jump rfl ?_ (within_cons rfl (within_jump rfl ?_ ?_)))
      · exact List.mem_cons_self ..
      · exact List.mem_cons_of_mem _ (List.mem_cons_self ..)
      · exact (straight_one rfl).within _
  | verifyObject src couldBeNull => exact yields_pure (straight_nil.closed [] next)
  | jumpTo base offset =>
      refine yields_bind fun rn _ => yields_bind fun place _ => yields_pure ?_
      exact (straight_cons rfl (straight_one rfl)).closed [] next
  | call base offset =>
      refine yields_bind fun rn _ => yields_bind fun place _ => yields_pure ?_
      exact (straight_cons rfl (straight_one rfl)).closed [] next
  | callFromThread offset =>
      refine yields_bind fun place _ => yields_pure ?_
      exact (straight_cons rfl (straight_one rfl)).closed [] next
  | runnableToNative slow scratch =>
      exact yields_pure (runnableToNative_closed lse slow.index next)
  | nativeToRunnable slow scratch result =>
      exact yields_bind fun _ _ => yields_pure (nativeToRunnable_closed lse slow.index next)
  | suspendCheck slow =>
      refine yields_pure (closed_ofInstrs ?_)
      exact within_cons rfl (within_cons rfl (within_jump rfl (hmem slow) (hnil _)))
  | exceptionPoll slow =>
      exact yields_pure (closed_ofInstrs (within_cons rfl (within_jump rfl (hmem slow) (hnil _))))
  | deliverException =>
      refine yields_pure (Straight.closed ?_ [] next)
      exact straight_cons rfl (straight_cons rfl (straight_cons rfl (straight_one rfl)))
  | jump target => exact yields_pure (closed_ofInstrs (within_jump rfl (hmem target) (hnil _)))
  | testMarking target test =>
      cases test with
      | zero =>
          refine yields_pure (closed_ofInstrs ?_)
          exact within_cons rfl (within_jump rfl (hmem target) (hnil _))
      | notZero =>
          refine yields_pure (closed_ofInstrs ?_)
          exact within_cons rfl (within_jump rfl (hmem target) (hnil _))
  | testMarkBit reference target test =>
      refine yields_bind fun base _ => yields_pure (closed_ofInstrs ?_)
      exact within_cons rfl (within_cons rfl (within_jump rfl (hmem target) (hnil _)))
  | testByte address target =>
      refine yields_pure (closed_ofInstrs (within_append ?_ ?_))
      · exact (loadImm64_straight .ip0 address).within _
      · exact within_cons rfl (within_jump rfl (hmem target) (hnil _))
  | bind label =>
      refine yields_pure ⟨Nat.le_refl next, fun i hi => absurd hi (by simp), fun l hlo hhi => ?_⟩
      exact absurd hhi (Nat.not_lt.mpr hlo)

end Crossing.Glue.A64
