import Crossing.Proofs.Argument.Cycle

/-
Planned moves as one parallel move: whatever the order in which they are
made, each target ends up with what its source held before the first of
them. That needs targets, sources and reference slots to be apart, and no
more: how wide a source is said to be does not matter, since planning never
looks at it (`planAll_fitted`). As many bytes are moved as the target has,
and of a reference on the stack the four that it takes up.
-/
namespace Crossing

/-- The same place with another size. -/
def Location.resize (l : Location) (size : Nat) : Location :=
  match l with
  | .register reg _ => .register reg size
  | .stack offset _ => .stack offset size

theorem Machine.at_resize (M : Machine) (l : Location) (size q : Nat) :
    M.At (l.resize size) q ↔ M.At l q := by
  cases l with
  | register reg size' =>
      constructor
      · rintro ⟨_, _, ⟨⟩, hq⟩
        exact ⟨_, _, rfl, hq⟩
      · rintro ⟨_, _, ⟨⟩, hq⟩
        exact ⟨_, _, rfl, hq⟩
  | stack offset size' =>
      constructor
      · rintro ⟨_, _, ⟨⟩, _⟩
      · rintro ⟨_, _, ⟨⟩, _⟩

-- ====================================================== sizes of sources

namespace ArgMove

/-- A register target without the size of its source. -/
def Pending.bare (t : Pending) : Pending := { t with source := t.source.resize 0 }

def Progress.bare (p : Progress) : Progress := { p with pending := p.pending.map Pending.bare }

theorem Pending.move_bare (t : Pending) : t.bare.move = t.move := by
  obtain ⟨dest, size, place, source, sourcePlace, slot, nullAllowed⟩ := t
  cases source with
  | register reg n => rfl
  | stack offset n => rfl

theorem fill_bare (p : Progress) (t : Pending) : fill p.bare t.bare = (fill p t).bare := by
  have hready : Ready p.bare t.bare ↔ Ready p t := Iff.rfl
  by_cases h : Ready p t
  · rw [fill_ready h, fill_ready (hready.mpr h), t.move_bare]
    rfl
  · rw [show fill p t = p from if_neg h]
    exact if_neg (hready.not.mpr h)

theorem foldl_bare (ts : List Pending) :
    ∀ p : Progress, (ts.map Pending.bare).foldl fill p.bare = (ts.foldl fill p).bare := by
  induction ts with
  | nil => exact fun p => rfl
  | cons t ts ih =>
      intro p
      rw [List.map_cons, List.foldl_cons, List.foldl_cons, fill_bare, ih]

theorem round_bare (p : Progress) : round p.bare = (round p).bare := by
  have hround : ∀ p : Progress, round p = p.pending.toList.foldl fill p := fun p =>
    (Array.foldl_toList ..).symm
  rw [hround, hround, ← foldl_bare, Progress.bare, Array.toList_map]

theorem rounds_bare (p : Progress) : rounds p.bare = (rounds p).map Progress.bare := by
  by_cases hempty : p.writes = []
  · rw [rounds_done hempty, rounds_done (show p.bare.writes = [] from hempty)]
    rfl
  have hbare : p.bare.writes ≠ [] := hempty
  by_cases hless : (round p).writes.length < p.writes.length
  · rw [rounds_next hempty hless, rounds_next hbare (by rw [round_bare]; exact hless), round_bare]
    exact rounds_bare (round p)
  · rw [rounds_stuck hempty hless, rounds_stuck hbare (by rw [round_bare]; exact hless)]
    rfl
termination_by p.writes.length

theorem queue_bare (model : RegisterModel) (p : Progress) (dest : Register) (size : Nat)
    (source : Location) (slot : FrameOffset) (nullAllowed : Bool) :
    queue model p.bare dest size (source.resize 0) slot nullAllowed
      = (queue model p dest size source slot nullAllowed).map Progress.bare := by
  have hpush : ∀ t : Pending, p.bare.pending.push t.bare = (p.pending.push t).map Pending.bare :=
    fun t => Array.map_push.symm
  cases source with
  | register reg n =>
      simp only [queue, Location.resize]
      cases model.place reg with
      | error e => rfl
      | ok origin =>
          cases model.place dest with
          | error e => rfl
          | ok target =>
              have h := hpush ⟨dest, size, target, .register reg n, some origin, slot, nullAllowed⟩
              simp only [bind, Except.bind]
              by_cases heq : origin = target
              · simp only [if_pos heq]
                exact congrArg (fun pending => Except.ok { p.bare with pending }) h
              · simp only [if_neg heq]
                exact congrArg (fun pending => Except.ok { p.bare with
                  pending
                  reads := addPlace origin p.reads
                  writes := addPlace target p.writes }) h
  | stack offset n =>
      simp only [queue, Location.resize]
      cases model.place dest with
      | error e => rfl
      | ok target =>
          have h := hpush ⟨dest, size, target, .stack offset n, none, slot, nullAllowed⟩
          exact congrArg (fun pending => Except.ok { p.bare with
            pending
            writes := addPlace target p.writes }) h

theorem toStack_bare (dest : FrameOffset) (size : Nat) (source : Location) (slot : FrameOffset)
    (nullAllowed : Bool) :
    toStack dest size (source.resize 0) slot nullAllowed
      = toStack dest size source slot nullAllowed := by
  cases source with
  | register reg n => rfl
  | stack offset n => rfl

/-- What the first phase does once a reference in a register is a handle. -/
def finish (model : RegisterModel) (p : Progress) (i : Nat) (dest source : Location)
    (slot : FrameOffset) : Except Violation Progress :=
  match dest with
  | .register reg size => queue model p reg size source slot (i ≠ 0)
  | .stack offset size =>
      .ok { p with moves := p.moves.push (toStack offset size source slot (i ≠ 0)) }

theorem first_stack (model : RegisterModel) (p : Progress) (i : Nat) (dest : Location)
    (offset : FrameOffset) (n : Nat) (slot : FrameOffset) :
    first model p i dest (.stack offset n) slot
      = finish model p i dest (.stack offset n) slot := by
  cases dest with
  | register reg size => rfl
  | stack target size => rfl

theorem first_register (model : RegisterModel) (p : Progress) (i : Nat) (dest : Location)
    (reg : Register) (n : Nat) (slot : FrameOffset) :
    first model p i dest (.register reg n) slot
      = if slot.isReference then
          (model.pointer reg).bind fun wide =>
            finish model { p with
              moves := (p.moves.push (.spillReference reg slot)).push
                (.handleToRegister wide slot (some reg) (i ≠ 0)) } i dest
              (.register wide model.pointerSize) slot
        else finish model p i dest (.register reg n) slot := by
  by_cases href : slot.isReference = true
  · rw [if_pos href]
    simp only [first, if_pos href]
    cases model.pointer reg with
    | error e => rfl
    | ok wide =>
        cases dest with
        | register reg size => rfl
        | stack target size => rfl
  · rw [if_neg href]
    simp only [first, if_neg href]
    cases dest with
    | register reg size => rfl
    | stack target size => rfl

section Alike

variable (model : RegisterModel) {p p' : Progress} (hp : p.bare = p'.bare)
include hp

theorem moves_alike : p.moves = p'.moves :=
  show p.bare.moves = p'.bare.moves from congrArg Progress.moves hp

theorem alike_moves (moves : Array ArgMove) :
    ({ p with moves } : Progress).bare = ({ p' with moves } : Progress).bare :=
  show { p.bare with moves } = { p'.bare with moves } from congrArg (fun q => { q with moves }) hp

theorem finish_alike (i : Nat) (dest : Location) {source source' : Location}
    (h : source.resize 0 = source'.resize 0) (slot : FrameOffset) :
    (finish model p i dest source slot).map Progress.bare
      = (finish model p' i dest source' slot).map Progress.bare := by
  cases dest with
  | register reg size =>
      refine (queue_bare ..).symm.trans (Eq.trans ?_ (queue_bare ..))
      rw [h, hp]
  | stack offset size =>
      have hmove : toStack offset size source slot (i ≠ 0)
          = toStack offset size source' slot (i ≠ 0) := by
        rw [← toStack_bare, h, toStack_bare]
      simp only [finish, hmove, moves_alike hp]
      exact congrArg Except.ok (alike_moves hp _)

/-- The first phase does the same for sources that differ in size only. -/
theorem first_alike (i : Nat) (dest : Location) {source source' : Location}
    (h : source.resize 0 = source'.resize 0) (slot : FrameOffset) :
    (first model p i dest source slot).map Progress.bare
      = (first model p' i dest source' slot).map Progress.bare := by
  cases source with
  | register reg n =>
      cases source' with
      | stack offset' n' => cases h
      | register reg' n' =>
          obtain rfl : reg = reg' := by injection h
          rw [first_register, first_register]
          by_cases href : slot.isReference = true
          · rw [if_pos href, if_pos href, moves_alike hp]
            cases model.pointer reg with
            | error e => rfl
            | ok wide => exact finish_alike model (alike_moves hp _) i dest rfl slot
          · rw [if_neg href, if_neg href]
            exact finish_alike model hp i dest h slot
  | stack offset n =>
      cases source' with
      | register reg' n' => cases h
      | stack offset' n' =>
          rw [first_stack, first_stack]
          exact finish_alike model hp i dest h slot

end Alike

/-- Two computations that agree up to `f`, continued in ways that agree. -/
theorem map_bind_congr {α β γ δ ε : Type} {f : α → β} {g : γ → δ} {r r' : Except ε α}
    {k l : α → Except ε γ} (h : r.map f = r'.map f)
    (hk : ∀ a a', f a = f a' → (k a).map g = (l a').map g) :
    (r.bind k).map g = (r'.bind l).map g := by
  cases r with
  | error e =>
      cases r' with
      | error e' =>
          injection h with he
          rw [he]
          rfl
      | ok a' => cases h
  | ok a =>
      cases r' with
      | error e' => cases h
      | ok a' =>
          injection h with ha
          exact hk a a' ha

theorem firstAll_alike (model : RegisterModel) (dests : List Location) :
    ∀ {p p' : Progress}, p.bare = p'.bare → ∀ (i : Nat) {sources sources' : List Location},
      sources.map (·.resize 0) = sources'.map (·.resize 0) → ∀ slots : List FrameOffset,
      (firstAll model p i dests sources slots).map Progress.bare
        = (firstAll model p' i dests sources' slots).map Progress.bare := by
  induction dests with
  | nil => exact fun hp i _ _ _ slots => congrArg Except.ok hp
  | cons dest dests ih =>
      intro p p' hp i sources sources' h slots
      cases sources with
      | nil =>
          obtain rfl : sources' = [] := List.map_eq_nil_iff.mp h.symm
          exact congrArg Except.ok hp
      | cons source sources =>
          cases sources' with
          | nil => cases h
          | cons source' sources' =>
              obtain ⟨hsource, hsources⟩ := List.cons.inj h
              cases slots with
              | nil => exact congrArg Except.ok hp
              | cons slot slots =>
                  rw [firstAll, firstAll]
                  exact map_bind_congr (first_alike model hp i dest hsource slot)
                    fun q q' hq => ih hq (i + 1) hsources slots

theorem rounds_alike {p p' : Progress} (hp : p.bare = p'.bare) :
    (rounds p).map (·.moves.toList) = (rounds p').map (·.moves.toList) := by
  have hbare : ∀ p : Progress,
      (rounds p).map (·.moves.toList) = (rounds p.bare).map (·.moves.toList) := by
    intro p
    rw [rounds_bare]
    cases rounds p with
    | error e => rfl
    | ok q => rfl
  rw [hbare p, hp, ← hbare p']

end ArgMove

namespace Transfer

open ArgMove

/-- How many bytes are read from a source on the stack: those of a
reference, and otherwise as many as the target has. -/
def reach (a : Transfer) : Nat := if a.isReference then 4 else a.dest.size

/-- The transfer with the size of its source as it is read. -/
def fitted (a : Transfer) : Transfer := { a with source := a.source.resize a.reach }

/-- Planning does not look at the sizes of sources. -/
theorem planAll_fitted (model : RegisterModel) (as : List Transfer) :
    planAll model (as.map fitted) = planAll model as := by
  have hsources : ((as.map fitted).map (·.source)).map (·.resize 0)
      = (as.map (·.source)).map (·.resize 0) := by
    simp only [List.map_map]
    refine List.map_congr_left fun a _ => ?_
    show (a.source.resize a.reach).resize 0 = a.source.resize 0
    cases a.source with
    | register reg n => rfl
    | stack offset n => rfl
  have hall := firstAll_alike model (as.map (·.dest)) (p := {}) rfl 0 hsources (as.map (·.slot))
  have h := map_bind_congr (g := id) hall (k := fun p => (rounds p).map (·.moves.toList))
    (l := fun p => (rounds p).map (·.moves.toList)) fun p p' hp => congrArg _ (rounds_alike hp)
  have hdests : (as.map fitted).map (·.dest) = as.map (·.dest) := List.map_map
  have hslots : (as.map fitted).map (·.slot) = as.map (·.slot) := List.map_map
  rw [planAll_bind, planAll_bind, hdests, hslots]
  simpa only [Except.map_id, id_eq] using h

-- ======================================================= parallel moves

/-- The source of a transfer is read from byte `o` of the frame. -/
def Reads (a : Transfer) (o : Nat) : Prop :=
  ∃ offset size, a.source = .stack offset size ∧ offset.value ≤ o ∧ o < offset.value + a.reach

/-- Transfers that make one parallel move. Their registers exist, and no
move goes through them on its way; no two have one target register or one
source register; stack targets overlap neither each other nor what is read
or kept as a reference; reference slots overlap neither each other nor the
sources of other transfers; a reference on the stack is in its slot; and
what is handed over for a reference is as wide as a pointer. -/
structure Parallel (M : Machine) (as : List Transfer) : Prop where
  named : ∀ a ∈ as, a.Named M
  spare : ∀ a ∈ as, ∀ q, M.At a.dest q ∨ M.At a.source q → M.spare ≠ some q
  unshared : as.Pairwise (Unshared M)
  targets : as.Pairwise fun a b => ∀ o, a.dest.Covers o → ¬b.dest.Covers o
  clear : ∀ a ∈ as, ∀ b ∈ as, ∀ o, a.dest.Covers o → ¬b.Reads o ∧ ¬b.SlotCovers o
  slots : as.Pairwise fun a b =>
    ∀ o, (a.SlotCovers o → ¬b.SlotCovers o ∧ ¬b.Reads o) ∧ (b.SlotCovers o → ¬a.Reads o)
  homed : ∀ a ∈ as, a.isReference = true → ∀ offset size, a.source = .stack offset size →
    offset = a.slot
  wide : ∀ a ∈ as, a.isReference = true → a.dest.size = M.model.pointerSize

variable {M : Machine} {as : List Transfer}

theorem at_fitted (a : Transfer) (q : Nat) : M.At a.fitted.source q ↔ M.At a.source q :=
  M.at_resize a.source a.reach q

theorem fitted_register {a : Transfer} {reg : Register} {size : Nat}
    (h : a.fitted.source = .register reg size) : ∃ n, a.source = .register reg n := by
  unfold fitted at h
  cases hsrc : a.source with
  | register reg' n =>
      rw [hsrc] at h
      injection h with hreg
      exact ⟨n, hreg ▸ rfl⟩
  | stack offset n =>
      rw [hsrc] at h
      cases h

theorem fitted_stack {a : Transfer} {offset : FrameOffset} {size : Nat}
    (h : a.fitted.source = .stack offset size) :
    (∃ n, a.source = .stack offset n) ∧ size = a.reach := by
  unfold fitted at h
  cases hsrc : a.source with
  | register reg n =>
      rw [hsrc] at h
      cases h
  | stack offset' n =>
      rw [hsrc] at h
      injection h with hoffset hsize
      exact ⟨⟨n, hoffset ▸ rfl⟩, hsize.symm⟩

theorem covers_fitted {a : Transfer} {o : Nat} (h : a.fitted.source.Covers o) : a.Reads o := by
  obtain ⟨offset, size, hfitted, hin⟩ := h
  obtain ⟨⟨n, hsrc⟩, rfl⟩ := fitted_stack hfitted
  exact ⟨offset, n, hsrc, hin⟩

/-- Each transfer of a parallel move makes sense on its own. -/
theorem Parallel.sane (h : Parallel M as) {a : Transfer} (ha : a ∈ as) : a.fitted.Sane M where
  dest := (h.named a ha).dest
  source reg size hsrc := by
    obtain ⟨n, hsrc⟩ := fitted_register hsrc
    exact (h.named a ha).source reg n hsrc
  dest_spare q hq := h.spare a ha q (.inl hq)
  source_spare q hq := h.spare a ha q (.inr ((at_fitted a q).mp hq))
  pointer href reg size hsrc := by
    obtain ⟨n, hsrc⟩ := fitted_register hsrc
    exact (h.named a ha).pointer href reg n hsrc
  homed href offset size hfitted := by
    obtain ⟨⟨n, hsrc⟩, rfl⟩ := fitted_stack hfitted
    refine ⟨h.homed a ha href offset n hsrc, ?_⟩
    rw [reach, if_pos (show a.isReference = true from href)]
  wide := h.wide a ha
  fits href := by
    have hreach : a.reach = a.dest.size := by
      rw [reach, if_neg (by rw [show a.isReference = false from href]; decide)]
    have hsize : a.fitted.source.size = a.reach := by
      unfold fitted
      cases a.source with
      | register reg n => rfl
      | stack offset n => rfl
    rw [hsize, hreach]
    exact Nat.le_refl _
  apart o hcov := ⟨fun hsrc => (h.clear a ha a ha o hcov).1 (covers_fitted hsrc),
    (h.clear a ha a ha o hcov).2⟩

/-- Transfers of a parallel move do not get into each other's way. -/
theorem Parallel.apart (h : Parallel M as) : (as.map fitted).Pairwise (Apart M) := by
  refine List.pairwise_map.mpr ?_
  refine ((h.unshared.and h.targets).and h.slots).imp_of_mem ?_
  rintro a b ha hb ⟨⟨hunshared, htargets⟩, hslots⟩
  refine ⟨hunshared.dests, fun q hq hq' => ?_, fun o hw => ?_, fun o hw => ?_⟩
  · exact hunshared.sources q ((at_fitted a q).mp hq) ((at_fitted b q).mp hq')
  · rcases hw with hdest | ⟨-, hslot⟩
    · rintro (hdest' | hsrc | hslot)
      · exact htargets o hdest hdest'
      · exact (h.clear a ha b hb o hdest).1 (covers_fitted hsrc)
      · exact (h.clear a ha b hb o hdest).2 hslot
    · rintro (hdest' | hsrc | hslot')
      · exact (h.clear b hb a ha o hdest').2 hslot
      · exact ((hslots o).1 hslot).2 (covers_fitted hsrc)
      · exact ((hslots o).1 hslot).1 hslot'
  · rcases hw with hdest | ⟨-, hslot⟩
    · rintro (hdest' | hsrc | hslot)
      · exact htargets o hdest' hdest
      · exact (h.clear b hb a ha o hdest).1 (covers_fitted hsrc)
      · exact (h.clear b hb a ha o hdest).2 hslot
    · rintro (hdest' | hsrc | hslot')
      · exact (h.clear a ha b hb o hdest').2 hslot
      · exact (hslots o).2 hslot (covers_fitted hsrc)
      · exact ((hslots o).1 hslot').1 hslot

/-- Planned moves are a parallel move. They can be made from any contents,
and however a machine makes them, each target then holds what its source
held before the first move: the value, or for a reference the address of
its slot, null if it may be null and is. The slot of each reference holds
the reference. No other byte has changed, and no register besides the
targets and the registers that references came in. -/
theorem plan_parallel (h : Parallel M as) {ms : List ArgMove}
    (hplan : planAll M.model as = .ok ms) :
    (∀ c, ∃ c', M.Runs ms c c')
      ∧ ∀ c c', M.Runs ms c c' → Delivered M (as.map fitted) c c' := by
  have hsane : ∀ a ∈ as.map fitted, a.Sane M := by
    intro a ha
    obtain ⟨b, hb, rfl⟩ := List.mem_map.mp ha
    exact h.sane hb
  rw [← planAll_fitted] at hplan
  rcases plan_spec hsane h.apart with ⟨ms', hms', hplaced, hdelivers⟩ | ⟨herror, -⟩
  · obtain rfl : ms = ms' := Except.ok.inj (hplan.symm.trans hms')
    exact ⟨Machine.runs_total hplaced, hdelivers⟩
  · cases hplan.symm.trans herror

/-- A chain through registers 1, 2 and 3, a reference that comes in register
4 and is handed over on the stack, and one that is on the stack and is
handed over in register 4. -/
def mixed : List Transfer :=
  [⟨.register ⟨3⟩ 8, .register ⟨2⟩ 8, Offset.noReference⟩,
    ⟨.stack ⟨0⟩ 8, .register ⟨4⟩ 4, ⟨16⟩⟩,
    ⟨.register ⟨2⟩ 8, .register ⟨1⟩ 4, Offset.noReference⟩,
    ⟨.register ⟨4⟩ 8, .stack ⟨24⟩ 4, ⟨24⟩⟩]

/-- The stack target lies below the two slots and what is read. -/
theorem mixed_bytes {a : Transfer} (ha : a ∈ mixed) (o : Nat) :
    (a.dest.Covers o → o < 8) ∧ (a.Reads o → 16 ≤ o) ∧ (a.SlotCovers o → 16 ≤ o) := by
  simp only [mixed, List.mem_cons, List.not_mem_nil, or_false] at ha
  rcases ha with rfl | rfl | rfl | rfl
  · exact ⟨nofun, nofun, nofun⟩
  · exact ⟨fun h => ((Location.covers_stack ..).mp h).2, nofun, fun h => h.2.1⟩
  · exact ⟨nofun, nofun, nofun⟩
  · refine ⟨nofun, ?_, fun h => Nat.le_trans (by decide) h.2.1⟩
    rintro ⟨offset, size, hsrc, hlow, -⟩
    cases hsrc
    exact Nat.le_trans (by decide) hlow

theorem parallel_mixed : Parallel ⟨.flat 8, 1000, none⟩ mixed := by
  have hat {n : Int} := @Machine.at_flat ⟨.flat 8, 1000, none⟩ 8 rfl n
  have h₁ {size q : Nat} := @hat 1 (by decide) size q
  have h₂ {size q : Nat} := @hat 2 (by decide) size q
  have h₃ {size q : Nat} := @hat 3 (by decide) size q
  have h₄ {size q : Nat} := @hat 4 (by decide) size q
  refine ⟨?_, fun _ _ _ _ => by simp, ?_, ?_, ?_, ?_, ?_, ?_⟩
  · intro a ha
    simp only [mixed, List.mem_cons, List.not_mem_nil, or_false] at ha
    rcases ha with rfl | rfl | rfl | rfl
    all_goals
      refine ⟨fun _ _ h => ?_, fun _ _ h => ?_, fun _ _ _ h => ?_⟩
      · cases h <;> exact ⟨_, rfl⟩
      · cases h <;> exact ⟨_, rfl⟩
      · cases h <;> exact ⟨_, rfl, rfl⟩
  · simp [mixed, unshared_iff, h₁, h₂, h₃, h₄]
  · simp [mixed]
  · intro a ha b hb o hcov
    have hlow := (mixed_bytes ha o).1 hcov
    exact ⟨fun h => absurd ((mixed_bytes hb o).2.1 h) (by omega),
      fun h => absurd ((mixed_bytes hb o).2.2 h) (by omega)⟩
  · simp [mixed, Reads, reach, SlotCovers, isReference, Offset.isReference, Offset.noReference]
    exact fun o _ _ _ => by omega
  · simp [mixed, isReference, Offset.isReference, Offset.noReference]
  · simp [mixed, isReference, Offset.isReference, Offset.noReference, RegisterModel.flat,
      Location.size]

/-- The moves of the mixed list exist, and are one parallel move. -/
theorem plan_parallel_mixed :
    Parallel ⟨.flat 8, 1000, none⟩ mixed
      ∧ ∃ ms, planAll (.flat 8) mixed = .ok ms
        ∧ (∀ c, ∃ c', Machine.Runs ⟨.flat 8, 1000, none⟩ ms c c')
        ∧ ∀ c c', Machine.Runs ⟨.flat 8, 1000, none⟩ ms c c' →
          Delivered ⟨.flat 8, 1000, none⟩ (mixed.map fitted) c c' := by
  have hchain : ¬Cyclic ⟨.flat 8, 1000, none⟩ mixed := by
    refine not_cyclic_of_chain [1, 2, 3] (by decide) fun a ha q r hshift => ?_
    have hat {n : Int} := @Machine.at_flat ⟨.flat 8, 1000, none⟩ 8 rfl n
    have h₁ {size q : Nat} := @hat 1 (by decide) size q
    have h₂ {size q : Nat} := @hat 2 (by decide) size q
    have h₃ {size q : Nat} := @hat 3 (by decide) size q
    simp only [mixed, List.mem_cons, List.not_mem_nil, or_false] at ha
    rcases ha with rfl | rfl | rfl | rfl
    · simp only [Shifts, h₂, h₃] at hshift
      exact ⟨1, by rw [hshift.1]; rfl, by rw [hshift.2.1]; rfl⟩
    · exact (Machine.at_stack _ _ _ _ hshift.2.1).elim
    · simp only [Shifts, h₁, h₂] at hshift
      exact ⟨0, by rw [hshift.1]; rfl, by rw [hshift.2.1]; rfl⟩
    · exact (Machine.at_stack _ _ _ _ hshift.1).elim
  rcases planAll_cases parallel_mixed.named parallel_mixed.unshared with ⟨-, ms, hms⟩ | ⟨hcyclic, -⟩
  · exact ⟨parallel_mixed, ms, hms, plan_parallel parallel_mixed hms⟩
  · exact absurd hcyclic hchain

end Transfer

end Crossing
