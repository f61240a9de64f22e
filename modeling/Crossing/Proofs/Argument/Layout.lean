import Crossing.Proofs.Argument.Rounds
import Crossing.Argument.Convention

/-
Where the arguments of a method are on both sides of a stub. Both
conventions go through the arguments in the same order and hand out
registers and slots one after the other; a `Seat` says how many were gone
when an argument had its turn, and that settles both of its locations. So
seats that differ give transfers that keep apart.
-/
namespace Crossing.Convention

-- ================================================================= seats

/-- An argument's turn: its number, and what the arguments before it took
(core registers and floating-point registers on either side, stack slots of
the native side). -/
structure Seat where
  type : ValueType
  index : Nat
  core : Nat
  fp : Nat
  stack : Nat

variable (c : Convention)

/-- The native register of an argument. `lead` native registers go to what
stands before the arguments. -/
def Seat.nativeReg (lead : Nat) (s : Seat) : Option Register :=
  if s.type.isFloating then c.nativeFp[s.fp]? else c.nativeCore[s.core + lead]?

def Seat.managedReg (s : Seat) : Option Register :=
  if s.type.isFloating then c.managedFp[s.fp]? else c.managedCore[s.core]?

/-- The home slot of an argument. -/
def Seat.home (area : Nat) (s : Seat) : FrameOffset := ⟨area + slotSize * (s.index + 1)⟩

/-- An argument as managed code passes it. -/
def Seat.managed (area : Nat) (s : Seat) : ManagedArg where
  type := s.type
  location := match s.managedReg c with
    | some reg => .register (c.sized reg s.type.managedSize) s.type.managedSize
    | none => .stack (s.home area) s.type.managedSize
  home := s.home area

/-- Where native code expects an argument. -/
def Seat.native (lead : Nat) (s : Seat) : Location :=
  match s.nativeReg c lead with
  | some reg => .register (c.sized reg s.type.nativeSize) s.type.nativeSize
  | none => .stack ⟨slotSize * s.stack⟩ s.type.nativeSize

section locations

variable {c} {area lead : Nat} {s : Seat} {n : Nat}

theorem Seat.native_register {reg : Register} (h : s.native c lead = .register reg n) :
    ∃ r, s.nativeReg c lead = some r ∧ reg = c.sized r s.type.nativeSize := by
  unfold Seat.native at h
  cases hreg : s.nativeReg c lead with
  | none => rw [hreg] at h; cases h
  | some r =>
      rw [hreg] at h
      injection h with hr
      exact ⟨r, rfl, hr.symm⟩

theorem Seat.native_stack {offset : FrameOffset} (h : s.native c lead = .stack offset n) :
    s.nativeReg c lead = none ∧ offset.value = 8 * s.stack ∧ n = s.type.nativeSize := by
  unfold Seat.native at h
  cases hreg : s.nativeReg c lead with
  | some r => rw [hreg] at h; cases h
  | none =>
      rw [hreg] at h
      injection h with hoffset hn
      exact ⟨rfl, by rw [← hoffset, slotSize], hn.symm⟩

theorem Seat.managed_register {reg : Register}
    (h : (s.managed c area).location = .register reg n) :
    ∃ r, s.managedReg c = some r ∧ reg = c.sized r s.type.managedSize := by
  unfold Seat.managed at h
  cases hreg : s.managedReg c with
  | none => rw [hreg] at h; cases h
  | some r =>
      rw [hreg] at h
      injection h with hr
      exact ⟨r, rfl, hr.symm⟩

theorem Seat.managed_stack {offset : FrameOffset}
    (h : (s.managed c area).location = .stack offset n) :
    offset = s.home area ∧ n = s.type.managedSize := by
  unfold Seat.managed at h
  cases hreg : s.managedReg c with
  | some r => rw [hreg] at h; cases h
  | none =>
      rw [hreg] at h
      injection h with hoffset hn
      exact ⟨hoffset.symm, hn.symm⟩

theorem Seat.size_native (c : Convention) (lead : Nat) (s : Seat) :
    (s.native c lead).size = s.type.nativeSize := by
  unfold Seat.native
  cases s.nativeReg c lead with
  | some r => rfl
  | none => rfl

theorem Seat.size_managed (c : Convention) (area : Nat) (s : Seat) :
    (s.managed c area).location.size = s.type.managedSize := by
  unfold Seat.managed
  cases s.managedReg c with
  | some r => rfl
  | none => rfl

end locations

/-- What is taken once an argument has had its turn. -/
def Seat.after (lead : Nat) (s : Seat) : Taken where
  core := if s.type.isFloating then s.core else s.core + 1
  fp := if s.type.isFloating then s.fp + 1 else s.fp
  stack := if (s.nativeReg c lead).isSome then s.stack else s.stack + 1

section after

variable (lead : Nat) (s : Seat)

theorem Seat.core_after : s.core ≤ (s.after c lead).core
    ∧ (s.type.isFloating = false → s.core < (s.after c lead).core) := by
  simp only [Seat.after]
  cases s.type.isFloating with
  | true => exact ⟨Nat.le_refl _, fun h => by cases h⟩
  | false => exact ⟨Nat.le_succ _, fun _ => Nat.lt_succ_self _⟩

theorem Seat.fp_after : s.fp ≤ (s.after c lead).fp
    ∧ (s.type.isFloating = true → s.fp < (s.after c lead).fp) := by
  simp only [Seat.after]
  cases s.type.isFloating with
  | true => exact ⟨Nat.le_succ _, fun _ => Nat.lt_succ_self _⟩
  | false => exact ⟨Nat.le_refl _, fun h => by cases h⟩

theorem Seat.stack_after : s.stack ≤ (s.after c lead).stack
    ∧ (s.nativeReg c lead = none → s.stack < (s.after c lead).stack)
    ∧ (s.after c lead).stack ≤ s.stack + 1 := by
  simp only [Seat.after]
  cases s.nativeReg c lead with
  | some reg => exact ⟨Nat.le_refl _, fun h => absurd h (by simp), Nat.le_succ _⟩
  | none => exact ⟨Nat.le_succ _, fun _ => Nat.lt_succ_self _, Nat.le_refl _⟩

end after

/-- The seats of a list of arguments. -/
def seats (lead index : Nat) (k : Taken) : List ValueType → List Seat
  | [] => []
  | t :: ts =>
      let s : Seat := ⟨t, index, k.core, k.fp, k.stack⟩
      s :: seats lead (index + 1) (s.after c lead) ts

theorem addWord_eq_ok {a b n : Nat} (h : addWord a b = .ok n) : n = a + b := by
  unfold addWord at h
  split at h
  · injection h with h
    exact h.symm
  · cases h

/-- A register location, if it is given at all. -/
theorem inRegister_eq (reg : Register) (n : Nat) :
    Yields (Location.inRegister reg n) fun l => l = .register reg n :=
  yields_ite (fun _ => yields_pure rfl) fun _ => yields_error _

/-- The same for one that is asked for on a condition only. -/
theorem inRegisters_eq {α : Type} (o : Option α) (f : α → Register) (n : Nat) :
    Yields (o.mapM fun a => Location.inRegister (f a) n) fun q =>
      q = o.map fun a => .register (f a) n := by
  cases o with
  | none => exact yields_pure rfl
  | some a => exact yields_map fun l hl => congrArg some (inRegister_eq _ _ l hl)

theorem inRegisters_ok {α : Type} {o : Option α} {f : α → Register}
    (h : ∀ a, o = some a → (f a).isSome = true) (n : Nat) :
    ∃ q, (o.mapM fun a => Location.inRegister (f a) n) = .ok q := by
  cases o with
  | none => exact ⟨_, rfl⟩
  | some a =>
      have hl : Location.inRegister (f a) n = .ok (.register (f a) n) := if_pos (h a rfl)
      exact ⟨_, congrArg (some <$> ·) hl⟩

/-- A view, if it is given at all. -/
theorem view_eq (reg : Register) (n : Nat) : Yields (c.view reg n) fun r => r = c.sized reg n := by
  unfold view sized
  split
  · next hisa =>
      refine yields_bind fun v hv => ?_
      rw [hisa, hv]
      cases v with
      | none => exact yields_error _
      | _ => exact yields_pure rfl
  · next hother =>
      refine yields_pure ?_
      split
      · next hisa _ => exact absurd hisa hother
      · next hisa _ => exact absurd hisa hother
      · next hisa _ => exact absurd hisa hother
      · next hisa _ => exact absurd hisa hother
      · rfl

theorem resultView_eq (t : Option ValueType) :
    Yields (c.resultView t) fun r => r = c.resultRegister t := by
  cases t with
  | none => exact yields_pure rfl
  | some t =>
      unfold resultView resultRegister
      exact yields_ite (fun hfloat => by simpa only [if_pos hfloat] using c.view_eq _ _)
        fun hfloat => by simpa only [if_neg hfloat] using c.view_eq _ _

theorem locate_eq (reg : Option Register) (n : Nat) (slot : FrameOffset) :
    Yields (c.locate reg n slot) fun l => l = match reg with
      | some r => .register (c.sized r n) n
      | none => .stack slot n := by
  cases reg with
  | some r =>
      refine yields_bind fun v hv => ?_
      exact c.view_eq r n v hv ▸ inRegister_eq v n
  | none => exact yields_pure rfl

/-- Whether a handle has a view of this width that names a register. -/
def viewed (r : Register) (n : Nat) : Bool :=
  match c.view r n with
  | .ok v => v.isSome
  | .error _ => false

/-- A location is given for a register with a view. -/
theorem locate_ok {reg : Option Register} {n : Nat} (h : ∀ r, reg = some r → c.viewed r n = true)
    (slot : FrameOffset) : ∃ l, c.locate reg n slot = .ok l := by
  cases reg with
  | none => exact ⟨_, rfl⟩
  | some r =>
      have hviewed := h r rfl
      unfold viewed at hviewed
      split at hviewed
      · next v hv => exact ⟨.register v n, by simp [locate, hv, Location.inRegister, hviewed, bind,
          Except.bind]⟩
      · cases hviewed

theorem seats_length (lead : Nat) (ts : List ValueType) :
    ∀ (index : Nat) (k : Taken), (c.seats lead index k ts).length = ts.length := by
  induction ts with
  | nil => exact fun _ _ => rfl
  | cons t ts ih => exact fun _ _ => congrArg Nat.succ (ih _ _)

/-- The managed side follows the seats. -/
theorem managedFrom_eq (lead area : Nat) (ts : List ValueType) :
    ∀ (index : Nat) (k m : Taken) (args : List ManagedArg), m.core = k.core → m.fp = k.fp →
      managedFrom c area index m ts = .ok args →
      args = (c.seats lead index k ts).map (·.managed c area) := by
  induction ts with
  | nil =>
      intro index k m args _ _ h
      injection h with h
      exact h.symm
  | cons t ts ih =>
      intro index k m args hcore hfp h
      obtain ⟨home, hhome, h⟩ := bind_eq_ok h
      obtain ⟨location, hlocation, h⟩ := bind_eq_ok h
      obtain ⟨rest, hrest, h⟩ := bind_eq_ok h
      injection h with h
      subst h
      obtain rfl := addWord_eq_ok hhome
      obtain rfl := c.locate_eq _ _ _ location hlocation
      rw [seats, List.map_cons]
      refine congr (congrArg List.cons ?_) (ih (index + 1) _ _ rest ?_ ?_ hrest)
      · simp only [Seat.managed, Seat.managedReg, Seat.home, hcore, hfp]
        cases t.isFloating with
        | true => rfl
        | false => rfl
      · simp only [Seat.after, hcore]
        cases t.isFloating with
        | true => rfl
        | false => rfl
      · simp only [Seat.after, hfp]
        cases t.isFloating with
        | true => rfl
        | false => rfl

/-- One turn of the native side. -/
theorem nativeNext_eq {lead : Nat} {s : Seat} {n : Taken} (hcore : n.core = s.core + lead)
    (hfp : n.fp = s.fp) (hstack : n.stack = s.stack) :
    Yields (nativeNext c n s.type) fun p =>
      p = (s.native c lead, { s.after c lead with core := (s.after c lead).core + lead }) := by
  unfold nativeNext Taken.next Seat.native Seat.after Seat.nativeReg
  cases s.type.isFloating with
  | true =>
      simp only [if_true]
      refine yields_bind fun l hl => yields_pure ?_
      rw [c.locate_eq _ _ _ l hl, hfp, hstack]
      cases c.nativeFp[s.fp]? with
      | some reg => simp only [hcore]; rfl
      | none => simp only [hcore]; rfl
  | false =>
      simp only [Bool.false_eq_true, if_false]
      refine yields_bind fun l hl => yields_pure ?_
      rw [c.locate_eq _ _ _ l hl, ← hcore, hfp, hstack]
      cases c.nativeCore[n.core]? with
      | some reg => simp only [hcore, Option.isSome_some, if_true, Nat.add_right_comm]
      | none => simp only [hcore, Option.isSome_none, Nat.add_right_comm]; rfl

/-- The native side follows the seats, and counts the slots it uses. -/
theorem nativeFrom_eq (lead : Nat) (ts : List ValueType) :
    ∀ (index : Nat) (k n : Taken), n.core = k.core + lead → n.fp = k.fp → n.stack = k.stack →
      Yields (nativeFrom c n ts) fun p => p.1 = (c.seats lead index k ts).map (·.native c lead)
        ∧ k.stack ≤ p.2.stack ∧ p.2.stack ≤ k.stack + ts.length
        ∧ ∀ s ∈ c.seats lead index k ts, s.nativeReg c lead = none → s.stack < p.2.stack := by
  induction ts with
  | nil =>
      intro index k n _ _ hstack
      exact yields_pure ⟨rfl, Nat.le_of_eq hstack.symm, Nat.le_of_eq hstack,
        fun s hs => absurd hs (by simp [seats])⟩
  | cons t ts ih =>
      intro index k n hcore hfp hstack
      let s : Seat := ⟨t, index, k.core, k.fp, k.stack⟩
      refine yields_bind fun next hnext => yields_bind fun rest hrest => yields_pure ?_
      obtain rfl := nativeNext_eq c (s := s) hcore hfp hstack next hnext
      obtain ⟨hlocs, hle, hmax, hlt⟩ := ih (index + 1) (s.after c lead)
        { s.after c lead with core := (s.after c lead).core + lead } rfl rfl rfl rest hrest
      have hgrows := s.stack_after c lead
      rw [seats, List.map_cons]
      refine ⟨congrArg _ hlocs, Nat.le_trans hgrows.1 hle, ?_, fun s' hs' hnone => ?_⟩
      · have hone : (s.after c lead).stack ≤ k.stack + 1 := hgrows.2.2
        rw [List.length_cons]
        exact Nat.le_trans hmax (by omega)
      · rcases List.mem_cons.mp hs' with rfl | hs'
        · exact Nat.lt_of_lt_of_le (hgrows.2.1 hnone) hle
        · exact hlt s' hs' hnone

-- ---------------------------------------------------- nothing is refused

/-- The register handed out next is one of those there are. -/
theorem Taken.next_mem {k k' : Taken} {core fp : List Register} {t : ValueType} {r : Register}
    (h : k.next core fp t = (some r, k')) : r ∈ core ++ fp := by
  unfold Taken.next at h
  split at h
  · exact List.mem_append_right _ (List.mem_of_getElem? (congrArg Prod.fst h))
  · exact List.mem_append_left _ (List.mem_of_getElem? (congrArg Prod.fst h))

/-- Every handle that a convention passes something in names a register, in
both widths. -/
structure Real : Prop where
  managed : ∀ n ∈ [4, 8], ∀ r ∈ c.managedCore ++ c.managedFp, c.viewed r n = true
  native : ∀ n ∈ [4, 8], ∀ r ∈ c.nativeCore ++ c.nativeFp, c.viewed r n = true
  result : ∀ t, c.resultView t = .ok (c.resultRegister t)
  method : c.method.isSome = true
  hidden : c.hidden.isSome = true

theorem real_of_isa {isa : Isa} (hc : Convention.ofIsa? isa = some c) : c.Real := by
  unfold Convention.ofIsa? at hc
  split at hc
  · cases hc
    refine ⟨by decide, by decide, fun t => ?_, rfl, rfl⟩
    rcases t with _ | t
    · rfl
    · cases t <;> rfl
  · cases hc
    refine ⟨by decide, by decide, fun t => ?_, rfl, rfl⟩
    rcases t with _ | t
    · rfl
    · cases t <;> rfl
  · cases hc

theorem nativeSize_mem (t : ValueType) : t.nativeSize ∈ [4, 8] := by
  cases t <;> decide

theorem managedSize_mem (t : ValueType) : t.managedSize ∈ [4, 8] := by
  cases t <;> decide

section Real

variable {c} (h : c.Real)

include h

/-- The managed side is laid out unless an offset overflows. -/
theorem Real.managedFrom_ok {area : Nat} (ts : List ValueType) :
    ∀ (index : Nat) (k : Taken), area + 8 * (index + ts.length) < wordLimit →
      ∃ args, managedFrom c area index k ts = .ok args := by
  induction ts with
  | nil => exact fun index k _ => ⟨[], rfl⟩
  | cons t ts ih =>
      intro index k hlt
      rw [List.length_cons] at hlt
      have hhome : addWord area (slotSize * (index + 1)) = .ok (area + slotSize * (index + 1)) := by
        unfold addWord slotSize
        exact if_pos (by omega)
      refine total_bind ⟨_, hhome⟩ fun home _ => ?_
      generalize hnext : k.next c.managedCore c.managedFp t = next
      obtain ⟨reg, k'⟩ := next
      refine total_bind (c.locate_ok (fun r hr => ?_) _) fun location _ => ?_
      · exact h.managed _ (managedSize_mem t) r (Taken.next_mem (hr ▸ hnext))
      · exact total_bind (ih (index + 1) k' (by omega)) fun args _ => ⟨_, rfl⟩

theorem Real.nativeNext_ok (k : Taken) (t : ValueType) : ∃ p, nativeNext c k t = .ok p := by
  unfold nativeNext
  generalize hnext : k.next c.nativeCore c.nativeFp t = next
  obtain ⟨reg, k'⟩ := next
  refine total_bind (c.locate_ok (fun r hr => ?_) _) fun location _ => ⟨_, rfl⟩
  exact h.native _ (nativeSize_mem t) r (Taken.next_mem (hr ▸ hnext))

theorem Real.nativeWhen_ok (passed : Bool) (k : Taken) : ∃ p, c.nativeWhen passed k = .ok p := by
  unfold nativeWhen
  split
  · exact total_bind (h.nativeNext_ok k .long) fun p _ => ⟨_, rfl⟩
  · exact ⟨_, rfl⟩

theorem Real.nativeFrom_ok (ts : List ValueType) : ∀ k, ∃ p, nativeFrom c k ts = .ok p := by
  induction ts with
  | nil => exact fun k => ⟨_, rfl⟩
  | cons t ts ih =>
      exact fun k => total_bind (h.nativeNext_ok k t) fun p _ =>
        total_bind (ih p.2) fun q _ => ⟨_, rfl⟩

/-- The native side is always laid out. -/
theorem Real.nativeArguments_ok (s : Shorty) (isStatic : Bool) (kind : NativeKind) :
    ∃ n, c.nativeArguments s isStatic kind = .ok n := by
  have hhidden : ∀ r, (if kind = .critical then some c.hidden else none) = some r →
      r.isSome = true := by
    intro r hr
    split at hr
    · cases hr
      exact h.hidden
    · cases hr
  exact total_bind (h.nativeWhen_ok _ _) fun env _ => total_bind (h.nativeWhen_ok _ _) fun class_ _ =>
    total_bind (h.nativeFrom_ok _ _) fun args _ =>
      total_bind (inRegisters_ok hhidden 8) fun hidden _ => ⟨_, rfl⟩

end Real

/-- How the seat of an earlier argument lies to that of a later one. -/
structure Seat.Before (lead : Nat) (s s' : Seat) : Prop where
  index : s.index < s'.index
  core : s.type.isFloating = false → s.core < s'.core
  fp : s.type.isFloating = true → s.fp < s'.fp
  stack : s.nativeReg c lead = none → s.stack < s'.stack

/-- Seats come one before the other. -/
theorem seats_pairwise (lead : Nat) (ts : List ValueType) :
    ∀ (index : Nat) (k : Taken), (c.seats lead index k ts).Pairwise (Seat.Before c lead)
      ∧ ∀ s ∈ c.seats lead index k ts, index ≤ s.index ∧ k.core ≤ s.core ∧ k.fp ≤ s.fp
        ∧ k.stack ≤ s.stack := by
  induction ts with
  | nil => exact fun index k => ⟨List.Pairwise.nil, fun s hs => absurd hs (by simp [seats])⟩
  | cons t ts ih =>
      intro index k
      let s : Seat := ⟨t, index, k.core, k.fp, k.stack⟩
      obtain ⟨hpairs, hbounds⟩ := ih (index + 1) (s.after c lead)
      have hcore := s.core_after c lead
      have hfp := s.fp_after c lead
      have hstack := s.stack_after c lead
      refine ⟨List.pairwise_cons.mpr ⟨fun s' hs' => ?_, hpairs⟩, fun s' hs' => ?_⟩
      · obtain ⟨hindex', hcore', hfp', hstack'⟩ := hbounds s' hs'
        exact ⟨hindex', fun h => Nat.lt_of_lt_of_le (hcore.2 h) hcore',
          fun h => Nat.lt_of_lt_of_le (hfp.2 h) hfp',
          fun h => Nat.lt_of_lt_of_le (hstack.2.1 h) hstack'⟩
      · rcases List.mem_cons.mp hs' with rfl | hs'
        · exact ⟨Nat.le_refl _, Nat.le_refl _, Nat.le_refl _, Nat.le_refl _⟩
        · obtain ⟨hindex', hcore', hfp', hstack'⟩ := hbounds s' hs'
          exact ⟨Nat.le_of_succ_le hindex', Nat.le_trans hcore.1 hcore',
            Nat.le_trans hfp.1 hfp', Nat.le_trans hstack.1 hstack'⟩

-- ============================================================= registers

/-- What the conventions of one instruction set have in common: `cores` and
`fps` are the places of the native argument registers, `hid` is that of the
hidden argument. Managed code passes the method in the first core register
and arguments from the second one on; floating-point arguments are in the
same registers on both sides. -/
structure Regular (M : Machine) (cores fps : List Nat) (hid : Nat) : Prop where
  core : ∀ n, n = 4 ∨ n = 8 →
    c.nativeCore.map (fun r => M.model.place (c.sized r n)) = cores.map .ok
  fp : ∀ n, n = 4 ∨ n = 8 → c.nativeFp.map (fun r => M.model.place (c.sized r n)) = fps.map .ok
  managedCore : c.managedCore = c.nativeCore.tail
  managedFp : c.managedFp = c.nativeFp
  pointer : ∀ r ∈ c.managedCore, ∃ wide, M.model.pointer (c.sized r 4) = .ok wide
    ∧ M.model.place wide = M.model.place (c.sized r 4)
  method : ∀ q, cores[0]? = some q → M.model.place c.method = .ok q
  hidden : M.model.place c.hidden = .ok hid
  pointerSize : M.model.pointerSize = 8
  nodup : (hid :: (cores ++ fps)).Nodup
  spare : ∀ q ∈ hid :: (cores ++ fps), M.spare ≠ some q
  room : 2 ≤ cores.length

theorem nativeSize_cases (t : ValueType) : t.nativeSize = 4 ∨ t.nativeSize = 8 := by
  cases t <;> decide

theorem managedSize_cases (t : ValueType) : t.managedSize = 4 ∨ t.managedSize = 8 := by
  cases t <;> decide

/-- The place of a listed register. -/
theorem place_of_map {M : Machine} {regs : List Register} {places : List Nat} {n : Nat}
    (h : regs.map (fun r => M.model.place (c.sized r n)) = places.map .ok) {j : Nat} {reg : Register}
    (hreg : regs[j]? = some reg) : ∃ q, places[j]? = some q ∧ M.model.place (c.sized reg n) = .ok q := by
  have hj := congrArg (·[j]?) h
  simp only [List.getElem?_map, hreg, Option.map_some] at hj
  obtain ⟨q, hq, heq⟩ := Option.map_eq_some_iff.mp hj.symm
  exact ⟨q, hq, heq.symm⟩

/-- The place of an argument's native register, from the lists of places.
With `lead` one it is the place of the managed register. -/
def Seat.place? (cores fps : List Nat) (lead : Nat) (s : Seat) : Option Nat :=
  if s.type.isFloating then fps[s.fp]? else cores[s.core + lead]?

/-- The places of arguments are places of argument registers. -/
theorem Seat.place_mem {cores fps : List Nat} {lead : Nat} {s : Seat} {q : Nat}
    (hq : s.place? cores fps lead = some q) : q ∈ cores ++ fps := by
  unfold Seat.place? at hq
  cases hfloat : s.type.isFloating with
  | true =>
      rw [hfloat] at hq
      exact List.mem_append_right _ (List.mem_of_getElem? hq)
  | false =>
      rw [hfloat] at hq
      exact List.mem_append_left _ (List.mem_of_getElem? hq)

section Regular

variable {c} {M : Machine} {cores fps : List Nat} {hid : Nat} (h : c.Regular M cores fps hid)

include h

/-- Managed code passes arguments like native code with one register gone. -/
theorem Regular.managedReg_eq (s : Seat) : s.managedReg c = s.nativeReg c 1 := by
  unfold Seat.managedReg Seat.nativeReg
  rw [h.managedCore, h.managedFp, List.getElem?_tail]

theorem Regular.place_nativeReg {lead : Nat} {s : Seat} {reg : Register} {n : Nat}
    (hreg : s.nativeReg c lead = some reg) (hn : n = 4 ∨ n = 8) :
    ∃ q, s.place? cores fps lead = some q ∧ M.model.place (c.sized reg n) = .ok q := by
  unfold Seat.nativeReg at hreg
  unfold Seat.place?
  cases hfloat : s.type.isFloating with
  | true =>
      rw [hfloat] at hreg
      exact c.place_of_map (h.fp n hn) hreg
  | false =>
      rw [hfloat] at hreg
      exact c.place_of_map (h.core n hn) hreg

/-- An argument's register on the native side, by its place. -/
theorem Regular.at_native {lead : Nat} {s : Seat} {q : Nat} (hq : M.At (s.native c lead) q) :
    s.place? cores fps lead = some q := by
  obtain ⟨reg, n, hloc, hplace⟩ := hq
  obtain ⟨r, hreg, rfl⟩ := Seat.native_register hloc
  obtain ⟨q', hq', hplace'⟩ := h.place_nativeReg hreg (nativeSize_cases s.type)
  rw [hplace] at hplace'
  injection hplace' with heq
  exact heq ▸ hq'

/-- An argument's register on the managed side, by its place. -/
theorem Regular.at_managed {area : Nat} {s : Seat} {q : Nat}
    (hq : M.At (s.managed c area).location q) : s.place? cores fps 1 = some q := by
  obtain ⟨reg, n, hloc, hplace⟩ := hq
  obtain ⟨r, hreg, rfl⟩ := Seat.managed_register hloc
  rw [h.managedReg_eq] at hreg
  obtain ⟨q', hq', hplace'⟩ := h.place_nativeReg hreg (managedSize_cases s.type)
  rw [hplace] at hplace'
  injection hplace' with heq
  exact heq ▸ hq'

theorem Regular.core_inj {i j q : Nat} (hi : cores[i]? = some q) (hj : cores[j]? = some q) :
    i = j := by
  have hnodup := (List.nodup_append.mp (List.nodup_cons.mp h.nodup).2).1
  obtain ⟨hlt, -⟩ := List.getElem?_eq_some_iff.mp hi
  exact (List.getElem?_inj hlt hnodup).mp (hi.trans hj.symm)

theorem Regular.fp_inj {i j q : Nat} (hi : fps[i]? = some q) (hj : fps[j]? = some q) : i = j := by
  have hnodup := (List.nodup_append.mp (List.nodup_cons.mp h.nodup).2).2.1
  obtain ⟨hlt, -⟩ := List.getElem?_eq_some_iff.mp hi
  exact (List.getElem?_inj hlt hnodup).mp (hi.trans hj.symm)

theorem Regular.core_ne_fp {i j q : Nat} (hi : cores[i]? = some q) (hj : fps[j]? = some q) :
    False :=
  (List.nodup_append.mp (List.nodup_cons.mp h.nodup).2).2.2 q (List.mem_of_getElem? hi) q
    (List.mem_of_getElem? hj) rfl

/-- Only an argument in a core register stands in the place of one. -/
theorem Regular.place_core {lead : Nat} {s : Seat} {i q : Nat} (hi : cores[i]? = some q)
    (hq : s.place? cores fps lead = some q) : i = s.core + lead := by
  unfold Seat.place? at hq
  cases hfloat : s.type.isFloating with
  | true =>
      rw [hfloat] at hq
      exact (h.core_ne_fp hi hq).elim
  | false =>
      rw [hfloat] at hq
      exact h.core_inj hi hq

/-- Two arguments do not share a register. -/
theorem Regular.place_ne {lead lead' : Nat} {s s' : Seat} (hs : s.Before c lead' s') {q : Nat}
    (hq : s.place? cores fps lead = some q) : s'.place? cores fps lead ≠ some q := by
  intro hq'
  cases hfloat : s.type.isFloating with
  | true =>
      have hlt := hs.fp hfloat
      unfold Seat.place? at hq hq'
      rw [hfloat] at hq
      cases hfloat' : s'.type.isFloating with
      | true =>
          rw [hfloat'] at hq'
          exact absurd (h.fp_inj hq hq') (Nat.ne_of_lt hlt)
      | false =>
          rw [hfloat'] at hq'
          exact h.core_ne_fp hq' hq
  | false =>
      have hlt := hs.core hfloat
      have hcore : cores[s.core + lead]? = some q := by
        unfold Seat.place? at hq
        rw [hfloat] at hq
        exact hq
      have := h.place_core hcore hq'
      omega

end Regular

-- ============================================================= transfers

/-- The transfer of one argument. -/
def Seat.transfer (area lead : Nat) (s : Seat) : Transfer where
  dest := s.native c lead
  source := (s.managed c area).location
  slot := (s.managed c area).reference

theorem Seat.slot_transfer {area lead : Nat} {s : Seat} (h : s.type = .reference) :
    (s.transfer c area lead).slot = s.home area :=
  if_pos h

theorem Seat.isReference_transfer (area lead : Nat) (s : Seat) :
    (s.transfer c area lead).isReference = decide (s.type = .reference) := by
  have hhome : Offset.isReference (s.home area) = true := by
    have : s.home area ≠ Offset.noReference := by
      intro heq
      have := congrArg Offset.value heq
      simp [Seat.home, Offset.noReference, slotSize] at this
    simp [Offset.isReference, this]
  by_cases href : s.type = .reference
  · rw [Transfer.isReference, s.slot_transfer c href, hhome, decide_eq_true href]
  · have hslot : (s.transfer c area lead).slot = Offset.noReference := if_neg href
    rw [Transfer.isReference, hslot, decide_eq_false href]
    rfl

/-- A stack target is one slot of the native side. -/
theorem Seat.dest_covers {area lead : Nat} {s : Seat} {o : Nat}
    (h : (s.transfer c area lead).dest.Covers o) :
    s.nativeReg c lead = none ∧ 8 * s.stack ≤ o ∧ o < 8 * s.stack + 8 := by
  obtain ⟨offset, n, hloc, hlo, hhi⟩ := h
  obtain ⟨hnone, hoffset, hn⟩ := Seat.native_stack hloc
  have hsize := nativeSize_cases s.type
  exact ⟨hnone, by omega, by omega⟩

/-- A stack source and a reference's slot are the argument's home. -/
theorem Seat.home_covers {area lead : Nat} {s : Seat} {o : Nat}
    (h : (s.transfer c area lead).source.Covers o ∨ (s.transfer c area lead).SlotCovers o) :
    area + 8 * (s.index + 1) ≤ o ∧ o < area + 8 * (s.index + 1) + 8 := by
  rcases h with ⟨offset, n, hloc, hlo, hhi⟩ | ⟨href, hlo, hhi⟩
  · obtain ⟨rfl, rfl⟩ := Seat.managed_stack hloc
    have hsize := managedSize_cases s.type
    simp only [Seat.home, slotSize] at hlo hhi
    exact ⟨hlo, by omega⟩
  · rw [Seat.isReference_transfer, decide_eq_true_eq] at href
    rw [s.slot_transfer c href] at hlo hhi
    simp only [Seat.home, slotSize] at hlo hhi
    exact ⟨hlo, by omega⟩

section Transfers

variable {c} {M : Machine} {cores fps : List Nat} {hid : Nat} (h : c.Regular M cores fps hid)

include h

/-- The transfer of an argument makes sense, if its slot on the native side
is below the caller's area. -/
theorem Regular.sane {area lead : Nat} {s : Seat}
    (hroom : s.nativeReg c lead = none → 8 * (s.stack + 1) ≤ area) :
    (s.transfer c area lead).Sane M where
  dest reg n hdest := by
    obtain ⟨r, hreg, rfl⟩ := Seat.native_register hdest
    obtain ⟨q, -, hq⟩ := h.place_nativeReg hreg (nativeSize_cases s.type)
    exact ⟨q, hq⟩
  source reg n hsrc := by
    obtain ⟨r, hreg, rfl⟩ := Seat.managed_register hsrc
    rw [h.managedReg_eq] at hreg
    obtain ⟨q, -, hq⟩ := h.place_nativeReg hreg (managedSize_cases s.type)
    exact ⟨q, hq⟩
  dest_spare q hq := h.spare q (List.mem_cons_of_mem _ (Seat.place_mem (h.at_native hq)))
  source_spare q hq := h.spare q (List.mem_cons_of_mem _ (Seat.place_mem (h.at_managed hq)))
  pointer href reg n hsrc := by
    rw [Seat.isReference_transfer, decide_eq_true_eq] at href
    obtain ⟨r, hreg, rfl⟩ := Seat.managed_register hsrc
    have hmem : r ∈ c.managedCore := by
      simp only [Seat.managedReg, href, ValueType.isFloating, Bool.false_eq_true, if_false] at hreg
      exact List.mem_of_getElem? hreg
    rw [href]
    exact h.pointer r hmem
  homed href offset n hsrc := by
    rw [Seat.isReference_transfer, decide_eq_true_eq] at href
    obtain ⟨rfl, rfl⟩ := Seat.managed_stack hsrc
    rw [s.slot_transfer c href, href]
    exact ⟨rfl, Nat.le_refl 4⟩
  wide href := by
    rw [Seat.isReference_transfer, decide_eq_true_eq] at href
    rw [h.pointerSize, Seat.transfer, Seat.size_native, href]
    rfl
  fits href := by
    rw [Seat.isReference_transfer, decide_eq_false_iff_not] at href
    rw [Seat.transfer, Seat.size_native, Seat.size_managed]
    cases ht : s.type with
    | reference => exact absurd ht href
    | _ => decide
  apart o ho := by
    obtain ⟨hnone, -, hhi⟩ := s.dest_covers c ho
    have := hroom hnone
    refine ⟨fun hcov => ?_, fun hcov => ?_⟩
    · have := s.home_covers c (.inl hcov : _ ∨ (s.transfer c area lead).SlotCovers o)
      omega
    · have := s.home_covers c (.inr hcov)
      omega

/-- The transfers of two arguments keep apart. -/
theorem Regular.apart {area lead : Nat} {s s' : Seat} (hs : s.Before c lead s')
    (hroom : s.nativeReg c lead = none → 8 * (s.stack + 1) ≤ area)
    (hroom' : s'.nativeReg c lead = none → 8 * (s'.stack + 1) ≤ area) :
    (s.transfer c area lead).Apart M (s'.transfer c area lead) where
  dests _ hq hq' := h.place_ne hs (h.at_native hq) (h.at_native hq')
  sources _ hq hq' := h.place_ne hs (h.at_managed hq) (h.at_managed hq')
  left o hw hn := by
    have hindex := hs.index
    rcases hw with hw | ⟨-, hw⟩
    · obtain ⟨hnone, hlo, hhi⟩ := s.dest_covers c hw
      have hbelow := hroom hnone
      have hstack := hs.stack hnone
      rcases hn with hn | hn
      · have := s'.dest_covers c hn
        omega
      · have := s'.home_covers c hn
        omega
    · have hhome := s.home_covers c (.inr hw)
      rcases hn with hn | hn
      · obtain ⟨hnone, -, hhi⟩ := s'.dest_covers c hn
        have := hroom' hnone
        omega
      · have := s'.home_covers c hn
        omega
  right o hw hn := by
    have hindex := hs.index
    rcases hw with hw | ⟨-, hw⟩
    · obtain ⟨hnone, hlo, hhi⟩ := s'.dest_covers c hw
      have hbelow := hroom' hnone
      rcases hn with hn | hn
      · obtain ⟨hnone', -, hhi'⟩ := s.dest_covers c hn
        have hstack := hs.stack hnone'
        omega
      · have := s.home_covers c hn
        omega
    · have hhome := s'.home_covers c (.inr hw)
      rcases hn with hn | hn
      · obtain ⟨hnone, -, hhi⟩ := s.dest_covers c hn
        have := hroom hnone
        omega
      · have := s.home_covers c hn
        omega

end Transfers

-- =============================================================== machines

/-- The machine that stubs of a convention run on. R11 and X16 are never
allocated. -/
def machine (sp : Nat) : Machine :=
  match c.isa with
  | .arm64 => ⟨.arm64, sp, some 16⟩
  | _ => ⟨.x86, sp, some 11⟩

theorem regular_x86_64 (sp : Nat) :
    x86_64.Regular (x86_64.machine sp) [7, 6, 2, 1, 8, 9] [16, 17, 18, 19, 20, 21, 22, 23] 0 where
  core n hn := by rcases hn with rfl | rfl <;> rfl
  fp n hn := by rcases hn with rfl | rfl <;> rfl
  managedCore := rfl
  managedFp := rfl
  pointer r hr := ⟨r, rfl, rfl⟩
  method q hq := by
    injection hq with hq
    subst hq
    rfl
  hidden := rfl
  pointerSize := rfl
  nodup := by decide
  spare := by
    show ∀ q ∈ _, some 11 ≠ some q
    decide
  room := by decide

theorem regular_arm64 (sp : Nat) :
    arm64.Regular (arm64.machine sp) [0, 1, 2, 3, 4, 5, 6, 7] [32, 33, 34, 35, 36, 37, 38, 39] 15 where
  core n hn := by rcases hn with rfl | rfl <;> rfl
  fp n hn := by rcases hn with rfl | rfl <;> rfl
  managedCore := rfl
  managedFp := rfl
  pointer r hr := by
    simp only [arm64, List.map_cons, List.map_nil, List.mem_cons, List.not_mem_nil, or_false] at hr
    rcases hr with rfl | rfl | rfl | rfl | rfl | rfl | rfl <;> exact ⟨_, rfl, rfl⟩
  method q hq := by
    injection hq with hq
    subst hq
    rfl
  hidden := rfl
  pointerSize := rfl
  nodup := by decide
  spare := by
    show ∀ q ∈ _, some 16 ≠ some q
    decide
  room := by decide

end Crossing.Convention
