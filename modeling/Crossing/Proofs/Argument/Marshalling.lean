import Crossing.Proofs.Argument.Layout
import Crossing.Stub

/-
Marshalling in a stub, from one end to the other: the three lists that a
stub's plan hands to argument planning are transfers that keep apart and
can be ranked, whatever the signature. So planning never refuses them, and
carrying the moves out brings every argument to where native code expects
it (`marshalling_delivers`).
-/
namespace Crossing

namespace Convention

-- ============================================================ the method

/-- The method goes to a register of its own. -/
def carryMethod (c : Convention) (dest : Location) : Transfer :=
  ⟨dest, .register c.method 8, Offset.noReference⟩

section Method

variable {c : Convention} {M : Machine} {cores fps : List Nat} {hid : Nat}
  (h : c.Regular M cores fps hid)

include h

theorem Regular.head : ∃ q, cores[0]? = some q := by
  have hroom := h.room
  exact ⟨cores[0], List.getElem?_eq_getElem (by omega)⟩

theorem Regular.at_method {q : Nat} (hq : M.At (.register c.method 8) q) : cores[0]? = some q := by
  obtain ⟨reg, n, heq, hq⟩ := hq
  injection heq with heq
  subst heq
  obtain ⟨q₀, hq₀⟩ := h.head
  rw [h.method q₀ hq₀] at hq
  injection hq with hq
  exact hq ▸ hq₀

/-- Carrying the method to a register of the convention makes sense. -/
theorem Regular.sane_method {reg : Register} {q : Nat} (hq : M.model.place reg = .ok q)
    (hmem : q ∈ hid :: (cores ++ fps)) : (c.carryMethod (.register reg 8)).Sane M := by
  obtain ⟨q₀, hq₀⟩ := h.head
  have hplain : ¬(c.carryMethod (.register reg 8)).isReference = true := Bool.false_ne_true
  refine ⟨fun reg' n heq => ?_, fun reg' n heq => ?_, fun q' hat => ?_, fun q' hat => ?_,
    fun href => absurd href hplain, fun href => absurd href hplain, fun href => absurd href hplain,
    fun _ => Nat.le_refl 8, fun o ho => ?_⟩
  · injection heq with heq
    exact ⟨q, heq ▸ hq⟩
  · injection heq with heq
    exact ⟨q₀, heq ▸ h.method q₀ hq₀⟩
  · obtain ⟨reg', n, heq, hq'⟩ := hat
    injection heq with heq
    rw [← heq, hq] at hq'
    injection hq' with hq'
    exact hq' ▸ h.spare q hmem
  · have hmem' := List.mem_of_getElem? (h.at_method hat)
    exact h.spare q' (List.mem_cons_of_mem _ (List.mem_append_left _ hmem'))
  · obtain ⟨offset, n, heq, -⟩ := ho
    cases heq

/-- It keeps apart from the arguments, if no argument goes to that
register: it touches no slot, and no argument comes in the register of the
method. -/
theorem Regular.apart_method {reg : Register} {area lead : Nat} {s : Seat}
    (hdest : ∀ q, M.model.place reg = .ok q → s.place? cores fps lead ≠ some q) :
    (c.carryMethod (.register reg 8)).Apart M (s.transfer c area lead) where
  dests q hq hq' := by
    obtain ⟨reg', n, heq, hq⟩ := hq
    injection heq with heq
    exact hdest q (heq ▸ hq) (h.at_native hq')
  sources q hq hq' := by
    have hmethod := h.at_method hq
    exact absurd (h.place_core hmethod (h.at_managed hq')) (by omega)
  left o hw := by
    rcases hw with ⟨offset, n, heq, -⟩ | ⟨-, href, -⟩
    · cases heq
    · cases href
  right o _ hn := by
    rcases hn with ⟨offset, n, heq, -⟩ | ⟨offset, n, heq, -⟩ | ⟨href, -⟩
    · cases heq
    · cases heq
    · cases href

end Method

-- ========================================================= native side

/-- How many native registers go to what stands before the arguments. -/
def lead (isStatic : Bool) (kind : NativeKind) : Nat :=
  if kind = .critical then 0 else if isStatic then 2 else 1

theorem lead_pos (isStatic : Bool) {kind : NativeKind} (hcritical : ¬kind = .critical) :
    1 ≤ lead isStatic kind := by
  rw [lead, if_neg hcritical]
  split
  · decide
  · decide

theorem roundUp_bounds (n : Nat) {m : Nat} (hm : 0 < m) : n ≤ roundUp n m ∧ roundUp n m ≤ n + m := by
  unfold roundUp
  have hmod := Nat.div_add_mod (n + m - 1) m
  have hlt := Nat.mod_lt (n + m - 1) hm
  rw [Nat.mul_comm] at hmod
  omega

section Native

variable {c : Convention} {M : Machine} {cores fps : List Nat} {hid : Nat}
  (h : c.Regular M cores fps hid)

include h

/-- The first two native core registers. -/
theorem Regular.leading : ∃ r₀ r₁ q₀ q₁, c.nativeCore[0]? = some r₀ ∧ c.nativeCore[1]? = some r₁
    ∧ cores[0]? = some q₀ ∧ cores[1]? = some q₁ ∧ M.model.place (c.sized r₀ 8) = .ok q₀
    ∧ M.model.place (c.sized r₁ 8) = .ok q₁ := by
  have hlength : c.nativeCore.length = cores.length := by
    have := congrArg List.length (h.core 8 (.inr rfl))
    simpa using this
  have hroom := h.room
  have hr₀ : c.nativeCore[0]? = some (c.nativeCore[0]) := List.getElem?_eq_getElem (by omega)
  have hr₁ : c.nativeCore[1]? = some (c.nativeCore[1]) := List.getElem?_eq_getElem (by omega)
  obtain ⟨q₀, hq₀, hp₀⟩ := c.place_of_map (h.core 8 (.inr rfl)) hr₀
  obtain ⟨q₁, hq₁, hp₁⟩ := c.place_of_map (h.core 8 (.inr rfl)) hr₁
  exact ⟨_, _, q₀, q₁, hr₀, hr₁, hq₀, hq₁, hp₀, hp₁⟩

end Native

/-- The native side of a method, argument by argument. -/
structure NativeLayout (c : Convention) (n : NativeArgs) (isStatic : Bool) (kind : NativeKind)
    (r₀ r₁ : Register) (ss : List Seat) : Prop where
  env : n.env = if kind = .critical then none else some (.register (c.sized r₀ 8) 8)
  class_ : n.class_ = if isStatic ∧ ¬kind = .critical then some (.register (c.sized r₁ 8) 8) else none
  hidden : n.hidden = if kind = .critical then some (.register c.hidden 8) else none
  args : n.args = ss.map (·.native c (lead isStatic kind))
  room : ∀ s ∈ ss, s.nativeReg c (lead isStatic kind) = none → 8 * (s.stack + 1) ≤ n.outArgsSize
  small : n.outArgsSize ≤ 8 * ss.length + 16

/-- A pointer before the arguments is passed in the next core register. -/
theorem nativeWhen_eq {c : Convention} {passed : Bool} {k : Taken} {r : Register}
    (hr : passed = true → c.nativeCore[k.core]? = some r) :
    Yields (c.nativeWhen passed k) fun p =>
      p = if passed then (some (.register (c.sized r 8) 8), { k with core := k.core + 1 })
        else (none, k) := by
  cases passed with
  | false => exact yields_pure rfl
  | true =>
      refine yields_bind fun next hnext => yields_pure ?_
      obtain ⟨l, hl, hnext⟩ := bind_eq_ok hnext
      cases hnext
      obtain rfl := c.locate_eq _ _ _ l hl
      simp only [hr rfl]
      rfl

theorem nativeArguments_layout {c : Convention} {r₀ r₁ : Register} (hr₀ : c.nativeCore[0]? = some r₀)
    (hr₁ : c.nativeCore[1]? = some r₁) (s : Shorty) (isStatic : Bool) (kind : NativeKind) :
    Yields (c.nativeArguments s isStatic kind) fun n => NativeLayout c n isStatic kind r₀ r₁
      (c.seats (lead isStatic kind) 0 {} (s.arguments isStatic)) := by
  refine yields_bind fun env henv => yields_bind fun class_ hclass => yields_bind fun args hargs =>
    yields_bind fun hidden hhidden => yields_pure ?_
  have henv := nativeWhen_eq (fun _ => hr₀) env henv
  have hclass := nativeWhen_eq (r := r₁) (fun hpassed => by
    have hcritical : ¬kind = .critical := (of_decide_eq_true hpassed).2
    simpa [henv, hcritical] using hr₁) class_ hclass
  obtain rfl := inRegisters_eq _ _ _ hidden hhidden
  -- what the registers before the arguments leave
  have hstart : env.1 = (if kind = .critical then none else some (.register (c.sized r₀ 8) 8))
      ∧ class_.1
        = (if isStatic ∧ ¬kind = .critical then some (.register (c.sized r₁ 8) 8) else none)
      ∧ class_.2.core = lead isStatic kind ∧ class_.2.fp = 0 ∧ class_.2.stack = 0 := by
    rw [hclass, henv]
    cases kind <;> cases isStatic <;> simp [lead]
  obtain ⟨henv, hclass, hcore, hfp, hstack⟩ := hstart
  obtain ⟨hargs, -, hmost, hbelow⟩ := nativeFrom_eq c (lead isStatic kind) (s.arguments isStatic) 0 {}
    class_.2 (by rw [hcore, Nat.zero_add]) hfp hstack args hargs
  have hround := roundUp_bounds (slotSize * args.2.stack) (show 0 < 16 by decide)
  simp only [slotSize, Nat.zero_add] at hround hmost ⊢
  refine ⟨henv, hclass, ?_, hargs, fun s' hs' hnone => ?_, ?_⟩
  · split <;> rfl
  · have := hbelow s' hs' hnone
    simp only
    omega
  · rw [seats_length]
    simp only
    omega

-- ========================================================= all transfers

/-- Everything that is moved for a native call: the method as class, the
arguments, and the method as hidden argument. -/
def transfers (c : Convention) (n : NativeArgs) (area lead : Nat) (ss : List Seat) : List Transfer :=
  n.class_.toList.map c.carryMethod ++ ss.map (·.transfer c area lead)
    ++ n.hidden.toList.map c.carryMethod

/-- Where the transfers of arguments stand: behind that of the class. -/
theorem transfers_seat {c : Convention} {n : NativeArgs} {area lead : Nat} {ss : List Seat} {i : Nat}
    {s : Seat} (hs : ss[i]? = some s) :
    (c.transfers n area lead ss)[n.class_.toList.length + i]? = some (s.transfer c area lead) := by
  obtain ⟨hlt, -⟩ := List.getElem?_eq_some_iff.mp hs
  rw [transfers, List.getElem?_append_left (by simp only [List.length_append, List.length_map]; omega),
    List.getElem?_append_right (by simp only [List.length_map]; omega), List.length_map,
    Nat.add_sub_cancel_left, List.getElem?_map, hs]
  rfl

section Transfers

variable {c : Convention} {M : Machine} {cores fps : List Nat} {hid : Nat}
  {n : NativeArgs} {isStatic : Bool} {kind : NativeKind} {r₀ r₁ : Register} {ss : List Seat}
  {area : Nat}

/-- The method as class, if it is moved there. -/
theorem NativeLayout.mem_class (hl : NativeLayout c n isStatic kind r₀ r₁ ss) {a : Transfer}
    (ha : a ∈ n.class_.toList.map c.carryMethod) :
    lead isStatic kind = 2 ∧ ¬kind = .critical ∧ a = c.carryMethod (.register (c.sized r₁ 8) 8) := by
  rw [hl.class_] at ha
  by_cases hclass : isStatic ∧ ¬kind = .critical
  · rw [if_pos hclass] at ha
    refine ⟨?_, hclass.2, List.mem_singleton.mp ha⟩
    rw [lead, if_neg hclass.2, if_pos hclass.1]
  · rw [if_neg hclass] at ha
    cases ha

/-- The method as hidden argument, if it is moved there. -/
theorem NativeLayout.mem_hidden (hl : NativeLayout c n isStatic kind r₀ r₁ ss) {a : Transfer}
    (ha : a ∈ n.hidden.toList.map c.carryMethod) :
    kind = .critical ∧ a = c.carryMethod (.register c.hidden 8) := by
  rw [hl.hidden] at ha
  by_cases hcritical : kind = .critical
  · rw [if_pos hcritical] at ha
    exact ⟨hcritical, List.mem_singleton.mp ha⟩
  · rw [if_neg hcritical] at ha
    cases ha

theorem NativeLayout.mem_transfers (hl : NativeLayout c n isStatic kind r₀ r₁ ss) {lead' : Nat}
    {a : Transfer} (ha : a ∈ c.transfers n area lead' ss) :
    (lead isStatic kind = 2 ∧ ¬kind = .critical ∧ a = c.carryMethod (.register (c.sized r₁ 8) 8))
      ∨ (∃ s ∈ ss, a = s.transfer c area lead')
      ∨ kind = .critical ∧ a = c.carryMethod (.register c.hidden 8) := by
  rcases List.mem_append.mp ha with ha | ha
  · rcases List.mem_append.mp ha with ha | ha
    · exact .inl (hl.mem_class ha)
    · obtain ⟨s, hs, rfl⟩ := List.mem_map.mp ha
      exact .inr (.inl ⟨s, hs, rfl⟩)
  · exact .inr (.inr (hl.mem_hidden ha))

variable (h : c.Regular M cores fps hid) {q₁ : Nat} (hq₁ : cores[1]? = some q₁)
  (hp₁ : M.model.place (c.sized r₁ 8) = .ok q₁)
  (hl : NativeLayout c n isStatic kind r₀ r₁ ss) (harea : n.outArgsSize ≤ area)

include h hq₁ hp₁ hl harea

theorem Regular.transfers_sane :
    ∀ a ∈ c.transfers n area (lead isStatic kind) ss, a.Sane M := by
  intro a ha
  rcases hl.mem_transfers ha with ⟨-, -, rfl⟩ | ⟨s, hs, rfl⟩ | ⟨-, rfl⟩
  · refine h.sane_method hp₁ (List.mem_cons_of_mem _ (List.mem_append_left _ ?_))
    exact List.mem_of_getElem? hq₁
  · exact h.sane fun hnone => Nat.le_trans (hl.room s hs hnone) harea
  · exact h.sane_method h.hidden (List.mem_cons_self ..)

/-- With class and method apart, arguments go to registers behind both. -/
theorem Regular.transfers_apart (hss : ss.Pairwise (Seat.Before c (lead isStatic kind))) :
    (c.transfers n area (lead isStatic kind) ss).Pairwise (Transfer.Apart M) := by
  have hroom : ∀ s ∈ ss, s.nativeReg c (lead isStatic kind) = none → 8 * (s.stack + 1) ≤ area :=
    fun s hs hnone => Nat.le_trans (hl.room s hs hnone) harea
  have hone : ∀ l : Option Location, (l.toList.map c.carryMethod).Pairwise (Transfer.Apart M) := by
    intro l
    cases l with
    | none => exact List.Pairwise.nil
    | some l => exact List.pairwise_singleton _ _
  have hclass : ∀ s ∈ ss, lead isStatic kind = 2 →
      (c.carryMethod (.register (c.sized r₁ 8) 8)).Apart M (s.transfer c area (lead isStatic kind)) := by
    intro s hs hlead
    refine h.apart_method fun q hq hplace => ?_
    rw [hp₁] at hq
    injection hq with hq
    subst hq
    have := h.place_core hq₁ hplace
    omega
  have hhidden : ∀ s ∈ ss,
      (c.carryMethod (.register c.hidden 8)).Apart M (s.transfer c area (lead isStatic kind)) := by
    intro s hs
    refine h.apart_method fun q hq hplace => ?_
    rw [h.hidden] at hq
    injection hq with hq
    subst hq
    exact (List.nodup_cons.mp h.nodup).1 (Seat.place_mem hplace)
  unfold transfers
  refine List.pairwise_append.mpr ⟨List.pairwise_append.mpr ⟨hone _, ?_, ?_⟩, hone _, ?_⟩
  · refine List.pairwise_map.mpr (hss.imp_of_mem fun hs hs' hbefore => ?_)
    exact h.apart hbefore (hroom _ hs) (hroom _ hs')
  · intro a ha b hb
    obtain ⟨hlead, -, rfl⟩ := hl.mem_class ha
    obtain ⟨s, hs, rfl⟩ := List.mem_map.mp hb
    exact hclass s hs hlead
  · intro a ha b hb
    obtain ⟨hcritical, rfl⟩ := hl.mem_hidden hb
    rcases List.mem_append.mp ha with ha | ha
    · exact absurd hcritical (hl.mem_class ha).2.1
    · obtain ⟨s, hs, rfl⟩ := List.mem_map.mp ha
      exact (hhidden s hs).symm

omit harea in
/-- Every move goes up in rank: along the core registers if class or
environment stand before the arguments, against their order for the
critical kind, where arguments move up and the method gets out of their
way. -/
theorem Regular.transfers_ranked :
    ∃ rank : Nat → Nat, ∀ a ∈ c.transfers n area (lead isStatic kind) ss, ∀ q r,
      M.At a.source q → M.At a.dest r → q ≠ r → rank q < rank r := by
  have hnodup := (List.nodup_append.mp (List.nodup_cons.mp h.nodup).2).1
  have hindex : ∀ {j q}, cores[j]? = some q → cores.idxOf q = j ∧ j < cores.length ∧ q ≠ hid := by
    intro j q hj
    obtain ⟨hlt, rfl⟩ := List.getElem?_eq_some_iff.mp hj
    refine ⟨hnodup.idxOf_getElem j hlt, hlt, fun heq => (List.nodup_cons.mp h.nodup).1 ?_⟩
    exact heq ▸ List.mem_append_left _ (List.mem_of_getElem? hj)
  -- an argument moves from one core register to another, or stays
  have hseat : ∀ {s : Seat} {q r}, M.At (s.managed c area).location q →
      M.At (s.native c (lead isStatic kind)) r → q ≠ r →
      cores[s.core + 1]? = some q ∧ cores[s.core + lead isStatic kind]? = some r := by
    intro s q r hq hr hne
    have hq := h.at_managed hq
    have hr := h.at_native hr
    unfold Seat.place? at hq hr
    cases hfloat : s.type.isFloating with
    | true =>
        rw [hfloat, if_pos rfl] at hq hr
        rw [hq] at hr
        injection hr with heq
        exact absurd heq hne
    | false =>
        rw [hfloat] at hq hr
        exact ⟨hq, hr⟩
  by_cases hcritical : kind = .critical
  · have hlead : lead isStatic kind = 0 := if_pos hcritical
    refine ⟨fun q => if q = hid then cores.length + 1 else cores.length - cores.idxOf q, ?_⟩
    intro a ha q r hq hr hne
    rcases hl.mem_transfers ha with ⟨-, hnot, -⟩ | ⟨s, hs, rfl⟩ | ⟨-, rfl⟩
    · exact absurd hcritical hnot
    · obtain ⟨hcore, hcore'⟩ := hseat hq hr hne
      obtain ⟨hiq, hltq, hneq⟩ := hindex hcore
      obtain ⟨hir, hltr, hner⟩ := hindex hcore'
      simp only [if_neg hneq, if_neg hner, hiq, hir, hlead]
      omega
    · obtain ⟨hiq, hltq, hneq⟩ := hindex (h.at_method hq)
      obtain ⟨reg, m, heq, hr⟩ := hr
      injection heq with heq
      rw [← heq, h.hidden] at hr
      injection hr with hr
      simp only [← hr, if_true, if_neg hneq]
      omega
  · refine ⟨cores.idxOf, ?_⟩
    intro a ha q r hq hr hne
    rcases hl.mem_transfers ha with ⟨-, -, rfl⟩ | ⟨s, hs, rfl⟩ | ⟨hnot, -⟩
    · obtain ⟨hiq, -, -⟩ := hindex (h.at_method hq)
      obtain ⟨reg, m, heq, hr⟩ := hr
      injection heq with heq
      rw [← heq, hp₁] at hr
      injection hr with hr
      show cores.idxOf q < cores.idxOf r
      rw [hiq, ← hr, (hindex hq₁).1]
      decide
    · obtain ⟨hcore, hcore'⟩ := hseat hq hr hne
      have hlead := lead_pos isStatic hcritical
      have hmoved : s.core + 1 ≠ s.core + lead isStatic kind := by
        intro heq
        rw [heq, hcore'] at hcore
        injection hcore with heq
        exact hne heq.symm
      show cores.idxOf q < cores.idxOf r
      rw [(hindex hcore).1, (hindex hcore').1]
      omega
    · exact absurd hnot hcritical

omit harea in
/-- The first core register is left for the environment, except with the
critical kind. -/
theorem Regular.transfers_clear (hcritical : ¬kind = .critical) :
    ∀ a ∈ c.transfers n area (lead isStatic kind) ss, ∀ q, M.At a.dest q → cores[0]? ≠ some q := by
  intro a ha q hq hzero
  rcases hl.mem_transfers ha with ⟨-, -, rfl⟩ | ⟨s, hs, rfl⟩ | ⟨hnot, -⟩
  · obtain ⟨reg, m, heq, hq⟩ := hq
    injection heq with heq
    rw [← heq, hp₁] at hq
    injection hq with hq
    exact absurd (h.core_inj hq₁ (hq ▸ hzero)) (by decide)
  · have hlead := lead_pos isStatic hcritical
    have := h.place_core hzero (h.at_native hq)
    omega
  · exact hcritical hnot

end Transfers

end Convention

-- ====================================================== the environment

namespace Machine

/-- What the operations do that load the native environment. `thread` is
what the current thread's control block holds. -/
def DoesOp (M : Machine) (thread : ThreadOffset → Nat) (op : Glue.Op) (c c' : Contents) : Prop :=
  match op with
  | .loadPointerFromThread dest offset =>
      ∃ d, M.model.place dest = .ok d ∧ M.Sets c c' d 8 (thread offset)
  | .storePointer offset src =>
      ∃ r, M.model.place src = .ok r ∧ M.Stores c c' offset.value 8 (c.reg r)
  | _ => False

/-- Operations one after the other. -/
def RunsOps (M : Machine) (thread : ThreadOffset → Nat) :
    List Glue.Op → Contents → Contents → Prop
  | [], c, c' => c' = c
  | op :: ops, c, c' => ∃ c₁, M.DoesOp thread op c c₁ ∧ M.RunsOps thread ops c₁ c'

end Machine

namespace Stub.Plan

open Convention

/-- What native code finds when it is called: the environment, the method
as class or as hidden argument, every argument, and for a reference the
address of the home slot that now holds it. Null is handed over as null,
except in the first place of all. -/
structure Marshalled (p : Plan) (M : Machine) (env : Nat) (c c' : Contents) : Prop where
  env : ∀ l, p.native.env = some l → M.Holds c' l env
  class_ : ∀ l, p.native.class_ = some l → M.Holds c' l (M.content c (.register p.abi.method 8))
  hidden : ∀ l, p.native.hidden = some l → M.Holds c' l (M.content c (.register p.abi.method 8))
  values : ∀ (i : Nat) (arg : ManagedArg) (dest : Location), p.managed[i]? = some arg →
    p.native.args[i]? = some dest → arg.type ≠ .reference → M.Holds c' dest (M.content c arg.location)
  references : ∀ (i : Nat) (arg : ManagedArg) (dest : Location), p.managed[i]? = some arg →
    p.native.args[i]? = some dest → arg.type = .reference →
    c'.load arg.home.value 4 = M.content c arg.location % 256 ^ 4
      ∧ M.Holds c' dest
        (if M.content c arg.location % 256 ^ 4 = 0 ∧ i + p.native.class_.toList.length ≠ 0 then 0
          else M.sp + arg.home.value)

/-- What a plan is laid out from. -/
structure LaidOut (c : Convention) (s : Shorty) (o : StubOptions) (p : Plan) : Prop where
  abi : p.abi = c
  signature : p.signature = s
  options : p.options = o
  native : c.nativeArguments s o.isStatic o.kind = .ok p.native
  managed : c.managedArguments s o.isStatic (p.native.outArgsSize + c.frameSize) = .ok p.managed
  classSource : p.classSource = p.native.class_.map fun _ => .register p.abi.method 8
  hiddenSource : p.hiddenSource = p.native.hidden.map fun _ => .register p.abi.method 8
  result : p.resultRegister = p.abi.resultRegister p.signature.result

theorem laidOut_of_make {abi : Convention} {s : Shorty} {options : StubOptions} :
    Yields (make abi s options) (LaidOut abi s options) := by
  refine yields_bind fun native hnative => yields_bind fun area harea =>
    yields_bind fun managed hmanaged => yields_bind fun result hresult =>
    yields_bind fun classSource hclass => yields_bind fun hiddenSource hhidden => yields_pure ?_
  obtain rfl := addWord_eq_ok harea
  rw [Nat.add_comm] at hmanaged
  exact ⟨rfl, rfl, rfl, hnative, hmanaged, inRegisters_eq _ _ _ _ hclass,
    inRegisters_eq _ _ _ _ hhidden, abi.resultView_eq _ result hresult⟩

/-- The managed arguments of a plan in terms of seats. -/
theorem LaidOut.seats {abi : Convention} {s : Shorty} {options : StubOptions} {p : Plan}
    (h : LaidOut abi s options p) :
    p.managed = (abi.seats (lead options.isStatic options.kind) 0 {}
      (s.arguments options.isStatic)).map (·.managed abi (p.native.outArgsSize + abi.frameSize)) :=
  managedFrom_eq abi _ _ _ 0 {} {} p.managed rfl rfl h.managed

/-- The three lists of a plan are those of its transfers. -/
theorem marshalling_eq {p : Plan} {area lead : Nat} {ss : List Seat}
    (hmanaged : p.managed = ss.map (·.managed p.abi area))
    (hargs : p.native.args = ss.map (·.native p.abi lead))
    (hclass : p.classSource = p.native.class_.map fun _ => .register p.abi.method 8)
    (hhidden : p.hiddenSource = p.native.hidden.map fun _ => .register p.abi.method 8) :
    let ts := p.abi.transfers p.native area lead ss
    p.marshalling = (ts.map (·.dest), ts.map (·.source), ts.map (·.slot)) := by
  have hdest : (·.dest) ∘ p.abi.carryMethod = id := rfl
  simp only [marshalling, transfers, List.map_append, List.map_map, hmanaged, hargs, hclass, hhidden,
    hdest, List.map_id, Option.toList_map]
  rfl

/-- Loading the environment changes the first native register only, and
nothing at all with the critical kind. -/
theorem loadEnv_spec {p : Plan} {M : Machine} {r₀ r₁ : Register} {q₀ : Nat}
    {isStatic : Bool} {kind : NativeKind} {ss : List Seat}
    (hl : NativeLayout p.abi p.native isStatic kind r₀ r₁ ss)
    (hp₀ : M.model.place (p.abi.sized r₀ 8) = .ok q₀) (thread : ThreadOffset → Nat) :
    (∀ c, ∃ c', M.RunsOps thread p.loadEnv c c')
      ∧ ∀ c c', M.RunsOps thread p.loadEnv c c' → c'.byte = c.byte
        ∧ (∀ q, M.spare ≠ some q → (¬kind = .critical → q ≠ q₀) → c'.reg q = c.reg q)
        ∧ ∀ l, p.native.env = some l → M.Holds c' l (thread (p.slot .jniEnv)) := by
  by_cases hcritical : kind = .critical
  · have henv : p.native.env = none := by rw [hl.env, if_pos hcritical]
    have hload : p.loadEnv = [] := by rw [loadEnv, henv]
    rw [hload, henv]
    refine ⟨fun c => ⟨c, rfl⟩, fun c c' hrun => ?_⟩
    subst hrun
    exact ⟨rfl, fun _ _ _ => rfl, fun l hl => by cases hl⟩
  · have henv : p.native.env = some (.register (p.abi.sized r₀ 8) 8) := by rw [hl.env, if_neg hcritical]
    have hload : p.loadEnv = [.loadPointerFromThread (p.abi.sized r₀ 8) (p.slot .jniEnv)] := by
      rw [loadEnv, henv]
    rw [hload, henv]
    refine ⟨fun c => ⟨_, _, ⟨q₀, hp₀, M.sets_update c q₀ 8 _⟩, rfl⟩, fun c c' hrun => ?_⟩
    obtain ⟨c₁, ⟨d, hd, hset⟩, rfl⟩ := hrun
    obtain rfl : q₀ = d := by rw [hp₀] at hd; injection hd
    refine ⟨hset.bytes, fun q hq hne => hset.others q (hne hcritical) hq, fun l hl => ?_⟩
    injection hl with hl
    subst hl
    exact ⟨q₀, hp₀, hset.value⟩

/-- Both conventions are regular on their machines. -/
theorem regular_of_isa {isa : Isa} {abi : Convention} (habi : Convention.ofIsa? isa = some abi)
    (sp : Nat) : ∃ cores fps hid, abi.Regular (abi.machine sp) cores fps hid := by
  unfold Convention.ofIsa? at habi
  split at habi
  · injection habi with habi
    exact ⟨_, _, _, habi ▸ regular_x86_64 sp⟩
  · injection habi with habi
    exact ⟨_, _, _, habi ▸ regular_arm64 sp⟩
  · cases habi

/-- Carried-out moves and a loaded environment are all that native code
expects. -/
theorem marshalled_of_delivered {p : Plan} {M : Machine} {cores fps : List Nat} {hid : Nat}
    (h : p.abi.Regular M cores fps hid) {r₀ r₁ : Register} {q₀ q₁ : Nat}
    (hq₀ : cores[0]? = some q₀) (hq₁ : cores[1]? = some q₁)
    (hp₀ : M.model.place (p.abi.sized r₀ 8) = .ok q₀)
    (hp₁ : M.model.place (p.abi.sized r₁ 8) = .ok q₁)
    {isStatic : Bool} {kind : NativeKind} {ss : List Seat}
    (hl : NativeLayout p.abi p.native isStatic kind r₀ r₁ ss) {area : Nat}
    (harea : p.native.outArgsSize ≤ area) (hmanaged : p.managed = ss.map (·.managed p.abi area))
    {thread : ThreadOffset → Nat} {c c₁ c' : Contents}
    (hmoves : Transfer.Delivered M (p.abi.transfers p.native area (lead isStatic kind) ss) c c₁)
    (henv : M.RunsOps thread p.loadEnv c₁ c') :
    p.Marshalled M (thread (p.slot .jniEnv)) c c' := by
  obtain ⟨hbytes, hregs, hholds⟩ := (loadEnv_spec hl hp₀ thread).2 c₁ c' henv
  -- loading the environment disturbs no target
  have hkept : ∀ (k : Nat) (a : Transfer),
      (p.abi.transfers p.native area (lead isStatic kind) ss)[k]? = some a →
      M.Holds c' a.dest (a.value M k c) := by
    intro k a hk
    have hmem := List.mem_of_getElem? hk
    have hsane := h.transfers_sane hq₁ hp₁ hl harea a hmem
    refine (hmoves.values k a hk).frame hbytes fun q hat => ?_
    refine hregs q (hsane.dest_spare q hat) fun hcritical heq => ?_
    exact h.transfers_clear hq₁ hp₁ hl hcritical a hmem q hat (heq ▸ hq₀)
  have hmethod : ∀ (k : Nat) (l : Location),
      (p.abi.transfers p.native area (lead isStatic kind) ss)[k]? = some (p.abi.carryMethod l) →
      M.Holds c' l (M.content c (.register p.abi.method 8)) := fun k l hk => hkept k _ hk
  have hseat : ∀ (i : Nat) (arg : ManagedArg) (dest : Location), p.managed[i]? = some arg →
      p.native.args[i]? = some dest → ∃ s : Seat, arg = s.managed p.abi area
        ∧ dest = s.native p.abi (lead isStatic kind)
        ∧ (p.abi.transfers p.native area (lead isStatic kind) ss)[p.native.class_.toList.length + i]?
          = some (s.transfer p.abi area (lead isStatic kind)) := by
    intro i arg dest harg hdest
    rw [hmanaged, List.getElem?_map] at harg
    rw [hl.args, List.getElem?_map] at hdest
    obtain ⟨s, hs, rfl⟩ := Option.map_eq_some_iff.mp harg
    rw [hs] at hdest
    injection hdest with hdest
    exact ⟨s, rfl, hdest.symm, transfers_seat hs⟩
  refine ⟨hholds, fun l hclass => hmethod 0 l ?_, fun l hhidden => ?_,
    fun i arg dest harg hdest htype => ?_, fun i arg dest harg hdest htype => ?_⟩
  · simp [transfers, hclass]
  · refine hmethod ((p.native.class_.toList.map p.abi.carryMethod
      ++ ss.map (·.transfer p.abi area (lead isStatic kind))).length) l ?_
    rw [transfers, List.getElem?_append_right (Nat.le_refl _), Nat.sub_self, hhidden]
    rfl
  · obtain ⟨s, rfl, rfl, hk⟩ := hseat i arg dest harg hdest
    have hplain : ¬(s.transfer p.abi area (lead isStatic kind)).isReference = true := by
      rw [Seat.isReference_transfer, decide_eq_true_eq]
      exact htype
    have hvalue := hkept _ _ hk
    rw [Transfer.value, if_neg hplain] at hvalue
    exact hvalue
  · obtain ⟨s, rfl, rfl, hk⟩ := hseat i arg dest harg hdest
    have href : (s.transfer p.abi area (lead isStatic kind)).isReference = true := by
      rw [Seat.isReference_transfer, decide_eq_true_eq]
      exact htype
    have hslot : (s.transfer p.abi area (lead isStatic kind)).slot = s.home area :=
      s.slot_transfer p.abi htype
    refine ⟨?_, ?_⟩
    · have hstored := hmoves.slots _ (List.mem_of_getElem? hk) href
      rw [hslot] at hstored
      exact (Contents.load_of_byte hbytes _ _).trans hstored
    · have hvalue := hkept _ _ hk
      rw [Transfer.value, if_pos href, hslot, Machine.handle] at hvalue
      have hnull : ∀ x, (decide (p.native.class_.toList.length + i ≠ 0) = true ∧ x % 256 ^ 4 = 0)
          ↔ (x % 256 ^ 4 = 0 ∧ i + p.native.class_.toList.length ≠ 0) := by
        intro x
        rw [decide_eq_true_eq, and_comm, Nat.add_comm]
      simp only [hnull] at hvalue
      exact hvalue

-- -------------------------------------------------- a plan can be made

/-- A plan can be made of a signature that is not too long for the offsets. -/
theorem make_ok {isa : Isa} {abi : Convention} (habi : Convention.ofIsa? isa = some abi) (s : Shorty)
    (options : StubOptions) (hshort : s.params.length < 2 ^ 58) :
    ∃ p, make abi s options = .ok p := by
  have hreal := abi.real_of_isa habi
  have hframe : abi.frameSize ≤ 176 := by
    unfold Convention.ofIsa? at habi
    split at habi
    · injection habi with habi
      rw [← habi]
      decide
    · injection habi with habi
      rw [← habi]
      decide
    · cases habi
  have hlength : (s.arguments options.isStatic).length ≤ s.params.length + 1 := by
    unfold Shorty.arguments
    split
    · omega
    · exact Nat.le_refl _
  obtain ⟨cores, fps, hid, hregular⟩ := regular_of_isa habi 0
  obtain ⟨r₀, r₁, -, -, hr₀, hr₁, -⟩ := hregular.leading
  refine total_bind (hreal.nativeArguments_ok s _ _) fun layout hlayout => ?_
  have hsmall := (nativeArguments_layout hr₀ hr₁ s _ _ layout hlayout).small
  rw [seats_length] at hsmall
  have harea : addWord abi.frameSize layout.outArgsSize = .ok (abi.frameSize + layout.outArgsSize) :=
    if_pos (by unfold wordLimit; omega)
  refine total_bind ⟨_, harea⟩ fun area heq => ?_
  obtain rfl := addWord_eq_ok heq
  refine total_bind (hreal.managedFrom_ok _ 0 {} (by unfold wordLimit; omega)) fun managed _ => ?_
  refine total_bind ⟨_, hreal.result _⟩ fun result _ => ?_
  exact total_bind (inRegisters_ok (fun _ _ => hreal.method) 8) fun classSource _ =>
    total_bind (inRegisters_ok (fun _ _ => hreal.method) 8) fun hiddenSource _ => ⟨_, rfl⟩

-- ------------------------------------------------------------- delivery

/-- Marshalling is right for every signature. On either instruction set a
plan can be made (for any signature that could be stored), planning its
moves never refuses, and carrying them out and then loading the environment
leaves native code everything it expects, whatever was in registers and
frame before. -/
theorem marshalling_delivers {isa : Isa} {abi : Convention}
    (habi : Convention.ofIsa? isa = some abi) (s : Shorty) (options : StubOptions) :
    (s.params.length < 2 ^ 58 → ∃ p, make abi s options = .ok p)
      ∧ ∀ p, make abi s options = .ok p →
        (p.native.env.isSome ↔ options.kind ≠ .critical)
        ∧ (p.native.class_.isSome ↔ options.isStatic = true ∧ options.kind ≠ .critical)
        ∧ (p.native.hidden.isSome ↔ options.kind = .critical)
        ∧ p.managed.length = (s.arguments options.isStatic).length
        ∧ p.native.args.length = (s.arguments options.isStatic).length
        ∧ ∀ sp, ∃ ms, ArgMove.plan (abi.machine sp).model p.marshalling.1 p.marshalling.2.1
              p.marshalling.2.2 = .ok ms
          ∧ ∀ thread c,
            (∃ c₁ c', (abi.machine sp).Runs ms c c₁
              ∧ (abi.machine sp).RunsOps thread p.loadEnv c₁ c')
            ∧ ∀ c₁ c', (abi.machine sp).Runs ms c c₁ →
              (abi.machine sp).RunsOps thread p.loadEnv c₁ c' →
              p.Marshalled (abi.machine sp) (thread (p.slot .jniEnv)) c c' := by
  refine ⟨make_ok habi s options, fun p hp => ?_⟩
  have hlaid := laidOut_of_make p hp
  obtain rfl := hlaid.abi
  have hmanaged := hlaid.seats
  have hlayout : ∀ {M : Machine} {cores fps : List Nat} {hid : Nat},
      p.abi.Regular M cores fps hid → ∃ r₀ r₁ q₀ q₁, cores[0]? = some q₀ ∧ cores[1]? = some q₁
        ∧ M.model.place (p.abi.sized r₀ 8) = .ok q₀ ∧ M.model.place (p.abi.sized r₁ 8) = .ok q₁
        ∧ NativeLayout p.abi p.native options.isStatic options.kind r₀ r₁
          (p.abi.seats (lead options.isStatic options.kind) 0 {} (s.arguments options.isStatic)) := by
    intro M cores fps hid h
    obtain ⟨r₀, r₁, q₀, q₁, hr₀, hr₁, hq₀, hq₁, hp₀, hp₁⟩ := h.leading
    exact ⟨r₀, r₁, q₀, q₁, hq₀, hq₁, hp₀, hp₁,
      nativeArguments_layout hr₀ hr₁ s _ _ p.native hlaid.native⟩
  obtain ⟨cores, fps, hid, h⟩ := regular_of_isa habi 0
  obtain ⟨r₀, r₁, q₀, q₁, -, -, -, -, hl⟩ := hlayout h
  refine ⟨?_, ?_, ?_, ?_, ?_, fun sp => ?_⟩
  · rw [hl.env]
    split <;> simp_all
  · rw [hl.class_]
    split <;> simp_all
  · rw [hl.hidden]
    split <;> simp_all
  · rw [hmanaged, List.length_map, seats_length]
  · rw [hl.args, List.length_map, seats_length]
  · obtain ⟨cores, fps, hid, h⟩ := regular_of_isa habi sp
    obtain ⟨r₀, r₁, q₀, q₁, hq₀, hq₁, hp₀, hp₁, hl⟩ := hlayout h
    have harea := Nat.le_add_right p.native.outArgsSize p.abi.frameSize
    have hpairs := (seats_pairwise p.abi (lead options.isStatic options.kind)
      (s.arguments options.isStatic) 0 {}).1
    obtain ⟨rank, hrank⟩ := h.transfers_ranked hq₁ hp₁ hl
    obtain ⟨ms, hplan, hplaced, hdelivers⟩ := Transfer.plan_ranked
      (h.transfers_sane hq₁ hp₁ hl harea) (h.transfers_apart hq₁ hp₁ hl harea hpairs) rank hrank
    have hlists := marshalling_eq hmanaged hl.args hlaid.classSource hlaid.hiddenSource
    refine ⟨ms, by rw [hlists]; exact hplan, fun thread c => ⟨?_, ?_⟩⟩
    · obtain ⟨c₁, hrun⟩ := Machine.runs_total hplaced c
      obtain ⟨c', hload⟩ := (loadEnv_spec hl hp₀ thread).1 c₁
      exact ⟨c₁, c', hrun, hload⟩
    · intro c₁ c' hrun hload
      exact marshalled_of_delivered h hq₀ hq₁ hp₀ hp₁ hl harea hmanaged (hdelivers c c₁ hrun) hload

/-- A static method that takes a reference, a number and a floating-point
number, on x86-64: a plan can be made, and its moves deliver. -/
theorem marshalling_delivers_mixed :
    ∃ p, make x86_64 ⟨none, [.reference, .int, .double]⟩ { isStatic := true } = .ok p
      ∧ ∃ ms, ArgMove.plan (x86_64.machine 0).model p.marshalling.1 p.marshalling.2.1
          p.marshalling.2.2 = .ok ms
        ∧ ∀ thread c c₁ c', (x86_64.machine 0).Runs ms c c₁ →
          (x86_64.machine 0).RunsOps thread p.loadEnv c₁ c' →
          p.Marshalled (x86_64.machine 0) (thread (p.slot .jniEnv)) c c' := by
  have hall := marshalling_delivers (show Convention.ofIsa? .x86_64 = some x86_64 from rfl)
    ⟨none, [.reference, .int, .double]⟩ { isStatic := true }
  obtain ⟨p, hp⟩ := hall.1 (by decide)
  obtain ⟨-, -, -, -, -, hmoves⟩ := hall.2 p hp
  obtain ⟨ms, hplan, hruns⟩ := hmoves 0
  exact ⟨p, hp, ms, hplan, fun thread c => (hruns thread c).2⟩

end Stub.Plan

end Crossing
