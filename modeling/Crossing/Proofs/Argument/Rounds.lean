import Crossing.Proofs.Argument.Transfer

/-
The second phase of planning: filling register targets in rounds. A target
is filled once nothing that is still to come reads it, so the sources of
the targets that remain are never overwritten (`Filling`). Rounds come to
an end: either every target is filled, or every register still to be
written is still to be read by one of the moves that remain, which is a
cycle. The file ends with what planning as a whole achieves
(`plan_spec`).
-/
namespace Crossing.ArgMove

-- ======================================================= register targets

/-- What filling a target from contents `c` puts into it. -/
def Pending.supply (M : Machine) (c : Contents) (t : Pending) : Nat :=
  match t.source with
  | .register .. => (t.sourcePlace.map c.reg).getD 0
  | .stack offset _ =>
      if t.slot.isReference then M.handle t.slot t.nullAllowed (c.load t.slot.value 4)
      else c.load offset.value t.size

/-- Register targets that share no register: no two are written to one, and
no two are read from one. -/
def Distinct (ts : List Pending) : Prop :=
  ∀ t ∈ ts, ∀ t' ∈ ts,
    (t.place = t'.place ∨ ∃ q, t.sourcePlace = some q ∧ t'.sourcePlace = some q) → t = t'

/-- Register targets whose registers exist, are not the spare one, and are
not shared. A reference on the stack fills a pointer. -/
structure Wired (M : Machine) (ts : List Pending) : Prop where
  place : ∀ t ∈ ts, M.model.place t.dest = .ok t.place ∧ M.spare ≠ some t.place
  source : ∀ t ∈ ts,
    (∃ reg n q, t.source = .register reg n ∧ M.model.place reg = .ok q ∧ t.sourcePlace = some q
      ∧ M.spare ≠ some q)
    ∨ ∃ offset n, t.source = .stack offset n ∧ t.sourcePlace = none
      ∧ (t.slot.isReference = true → t.size = M.model.pointerSize)
  distinct : Distinct ts

/-- The move that fills a target can be made, and puts there what the
target is supplied with. -/
theorem Wired.move {M : Machine} {ts : List Pending} (h : Wired M ts) {t : Pending} (ht : t ∈ ts) :
    M.Placed t.move
      ∧ ∀ c c', M.Does t.move c c' → M.Sets c c' t.place t.size (t.supply M c) := by
  have hplace := (h.place t ht).1
  unfold Pending.move Pending.supply
  rcases h.source t ht with ⟨reg, n, q, hsrc, hq, hsome, -⟩ | ⟨offset, n, hsrc, -, hwidth⟩
  · rw [hsrc]
    refine ⟨⟨⟨_, hplace⟩, _, hq⟩, fun c c' hdoes => ?_⟩
    obtain ⟨d, r, hd, hr, hset⟩ := hdoes
    obtain rfl : t.place = d := by rw [hplace] at hd; injection hd
    obtain rfl : q = r := by rw [hq] at hr; injection hr
    rw [hsome]
    exact hset
  · rw [hsrc]
    by_cases href : t.slot.isReference = true
    · simp only [if_pos href]
      refine ⟨⟨⟨_, hplace⟩, fun reg hreg => by cases hreg⟩, fun c c' hdoes => ?_⟩
      obtain ⟨d, reference, hd, rfl, hset⟩ := hdoes
      obtain rfl : t.place = d := by rw [hplace] at hd; injection hd
      rw [hwidth href]
      exact hset
    · simp only [if_neg href]
      refine ⟨⟨_, hplace⟩, fun c c' hdoes => ?_⟩
      obtain ⟨d, hd, hset⟩ := hdoes
      obtain rfl : t.place = d := by rw [hplace] at hd; injection hd
      exact hset

/-- What a target is supplied with depends on the frame and on its source
register only. -/
theorem Pending.supply_congr (M : Machine) {t : Pending} {c c' : Contents} (hbytes : c'.byte = c.byte)
    (hreg : ∀ q, t.sourcePlace = some q → c'.reg q = c.reg q) :
    t.supply M c' = t.supply M c := by
  have hload := Contents.load_of_byte hbytes
  unfold Pending.supply
  cases t.source with
  | register reg n =>
      cases hsome : t.sourcePlace with
      | none => rfl
      | some q => exact hreg q hsome
  | stack offset n => simp only [hload]

-- ============================================================ invariants

/-- What planning's two register sets say about the targets: a register is
to be written for a target that is not filled, and to be read for a target
that is not filled and has its source there. -/
structure Tidy (p : Progress) : Prop where
  reads : ∀ q ∈ p.reads, ∃ t ∈ p.pending.toList,
    t.sourcePlace = some q ∧ q ≠ t.place ∧ t.place ∈ p.writes
  writes : ∀ q ∈ p.writes, ∃ t ∈ p.pending.toList, t.place = q
  awaited : ∀ t ∈ p.pending.toList, t.place ∈ p.writes → ∀ q, t.sourcePlace = some q → q ∈ p.reads

/-- What filling keeps up: a target that is not filled is still supplied
with its value, a filled one has it, and nothing but targets changes.
`wants t v` says that `v` is the value for target `t`. -/
structure Filling (M : Machine) (wants : Pending → Nat → Prop) (p : Progress)
    (c₁ c : Contents) : Prop where
  todo : ∀ t ∈ p.pending.toList, t.place ∈ p.writes → ∀ v, wants t v →
    t.supply M c % 256 ^ t.size = v % 256 ^ t.size
  done : ∀ t ∈ p.pending.toList, t.place ∉ p.writes → ∀ v, wants t v →
    c.reg t.place % 256 ^ t.size = v % 256 ^ t.size
  bytes : c.byte = c₁.byte
  others : ∀ q, M.spare ≠ some q → (∀ t ∈ p.pending.toList, t.place ≠ q) → c.reg q = c₁.reg q

theorem mem_dropPlace {q r : Nat} {places : List Nat} :
    q ∈ dropPlace r places ↔ q ∈ places ∧ q ≠ r := by
  simp [dropPlace]

theorem mem_addPlace {q r : Nat} {places : List Nat} :
    q ∈ addPlace r places ↔ q = r ∨ q ∈ places := by
  unfold addPlace
  split
  · next h => exact ⟨.inr, fun hq => hq.elim (fun heq => heq ▸ h) id⟩
  · exact List.mem_cons

theorem dropPlace_length {r : Nat} {places : List Nat} (h : r ∈ places) :
    (dropPlace r places).length < places.length := by
  refine List.length_filter_lt_length_iff_exists.mpr ⟨r, h, ?_⟩
  simp

/-- Registers of which each is still to be written, and is the source of a
target that is one of them too. Each waits for another one. -/
def Ring (p : Progress) (R : Nat → Prop) : Prop :=
  ∀ q, R q → q ∈ p.writes ∧ ∃ t ∈ p.pending.toList, t.sourcePlace = some q ∧ R t.place

/-- Progress from `p` to `q`: the same targets, no register more to write,
no ring broken, and moves that keep the invariant. -/
structure Advances (M : Machine) (p q : Progress) : Prop where
  pending : q.pending = p.pending
  tidy : Tidy q
  length : q.writes.length ≤ p.writes.length
  ring : ∀ R, Ring p R → Ring q R
  moves : Wired M p.pending.toList →
    ∃ ms, q.moves.toList = p.moves.toList ++ ms ∧ (∀ m ∈ ms, M.Placed m)
      ∧ ∀ wants c₁ c c', Filling M wants p c₁ c → M.Runs ms c c' → Filling M wants q c₁ c'

theorem advances_refl {M : Machine} {p : Progress} (h : Tidy p) : Advances M p p where
  pending := rfl
  tidy := h
  length := Nat.le_refl _
  ring _ h := h
  moves _ := by
    refine ⟨[], (List.append_nil _).symm, fun m hm => absurd hm (by simp), ?_⟩
    intro wants c₁ c c' hfill hrun
    subst hrun
    exact hfill

theorem Advances.trans {M : Machine} {p q r : Progress} (h : Advances M p q)
    (h' : Advances M q r) : Advances M p r where
  pending := h'.pending.trans h.pending
  tidy := h'.tidy
  length := Nat.le_trans h'.length h.length
  ring R hR := h'.ring R (h.ring R hR)
  moves hw := by
    obtain ⟨ms, hms, hplaced, hruns⟩ := h.moves hw
    obtain ⟨ms', hms', hplaced', hruns'⟩ := h'.moves (h.pending ▸ hw)
    refine ⟨ms ++ ms', by rw [hms', hms, List.append_assoc], fun m hm => ?_, ?_⟩
    · exact (List.mem_append.mp hm).elim (hplaced m) (hplaced' m)
    · intro wants c₁ c c' hfill hrun
      obtain ⟨c₂, hrun, hrun'⟩ := (Machine.runs_append _ _).mp hrun
      exact hruns' wants c₁ c₂ c' (hruns wants c₁ c c₂ hfill hrun) hrun'

-- ============================================================== filling

/-- A target that can be filled: it is to be written, and not to be read. -/
def Ready (p : Progress) (t : Pending) : Prop := t.place ∈ p.writes ∧ t.place ∉ p.reads

theorem fill_ready {p : Progress} {t : Pending} (h : Ready p t) :
    fill p t = { p with
      moves := p.moves.push t.move
      reads := match t.sourcePlace with
        | some place => dropPlace place p.reads
        | none => p.reads
      writes := dropPlace t.place p.writes } :=
  if_pos h

/-- The registers to be read once a target is filled. -/
theorem mem_reads_fill {p : Progress} {t : Pending} (h : Ready p t) {q : Nat} :
    q ∈ (fill p t).reads ↔ q ∈ p.reads ∧ t.sourcePlace ≠ some q := by
  rw [fill_ready h]
  cases t.sourcePlace with
  | none => simp
  | some r =>
      simp only [mem_dropPlace, ne_eq, Option.some.injEq]
      exact and_congr_right fun _ => not_congr eq_comm

theorem mem_writes_fill {p : Progress} {t : Pending} (h : Ready p t) {q : Nat} :
    q ∈ (fill p t).writes ↔ q ∈ p.writes ∧ q ≠ t.place := by
  rw [fill_ready h]
  exact mem_dropPlace

theorem pending_fill (p : Progress) (t : Pending) : (fill p t).pending = p.pending := by
  unfold fill
  split
  · rfl
  · rfl

/-- A filled target takes its own registers out of the two sets, and no
other target's. -/
theorem tidy_fill {p : Progress} (hd : Distinct p.pending.toList) (hp : Tidy p)
    {t : Pending} (ht : t ∈ p.pending.toList) (h : Ready p t) : Tidy (fill p t) where
  reads q hq := by
    obtain ⟨hq, hsrc⟩ := (mem_reads_fill h).mp hq
    obtain ⟨t', ht', hq', hne, hwrite⟩ := hp.reads q hq
    rw [pending_fill]
    refine ⟨t', ht', hq', hne, (mem_writes_fill h).mpr ⟨hwrite, fun heq => hsrc ?_⟩⟩
    rw [← hd t' ht' t ht (.inl heq)]
    exact hq'
  writes q hq := by
    rw [pending_fill]
    exact hp.writes q ((mem_writes_fill h).mp hq).1
  awaited t' ht' hwrite q hq := by
    rw [pending_fill] at ht'
    obtain ⟨hwrite, hne⟩ := (mem_writes_fill h).mp hwrite
    refine (mem_reads_fill h).mpr ⟨hp.awaited t' ht' hwrite q hq, fun hsrc => hne ?_⟩
    rw [hd t' ht' t ht (.inr ⟨q, hq, hsrc⟩)]

/-- No register of a ring is filled: what comes from it waits in the ring. -/
theorem ring_fill {p : Progress} (hp : Tidy p) {t : Pending} (h : Ready p t) {R : Nat → Prop}
    (hR : Ring p R) : Ring (fill p t) R := by
  intro q hq
  obtain ⟨hwrite, t', ht', hsrc, hplace⟩ := hR q hq
  refine ⟨(mem_writes_fill h).mpr ⟨hwrite, fun heq => ?_⟩, t', ?_, hsrc, hplace⟩
  · exact h.2 (heq ▸ hp.awaited t' ht' (hR _ hplace).1 q hsrc)
  · rwa [pending_fill]

/-- Filling a target that nothing reads disturbs no other target. -/
theorem filling_fill {M : Machine} {wants : Pending → Nat → Prop} {p : Progress}
    (hw : Wired M p.pending.toList) (hp : Tidy p) {t : Pending} (ht : t ∈ p.pending.toList)
    (h : Ready p t) {c₁ c c' : Contents} (hfill : Filling M wants p c₁ c)
    (hdoes : M.Does t.move c c') : Filling M wants (fill p t) c₁ c' := by
  have hset := (hw.move ht).2 c c' hdoes
  refine ⟨fun t' ht' hwrite v hv => ?_, fun t' ht' hdone v hv => ?_, ?_, fun q hq hfree => ?_⟩
  · rw [pending_fill] at ht'
    obtain ⟨hwrite, -⟩ := (mem_writes_fill h).mp hwrite
    rw [← hfill.todo t' ht' hwrite v hv]
    refine congrArg (· % 256 ^ t'.size) (t'.supply_congr M hset.bytes fun q hq => ?_)
    -- the source of `t'` is still to be read, so it is not what was written
    have hread := hp.awaited t' ht' hwrite q hq
    refine hset.others q (fun heq => h.2 (heq ▸ hread)) ?_
    rcases hw.source t' ht' with ⟨_, _, r, -, -, hr, hspare⟩ | ⟨_, _, -, hnone, -⟩
    · rw [hr] at hq
      injection hq with hq
      exact hq ▸ hspare
    · rw [hnone] at hq
      cases hq
  · rw [pending_fill] at ht'
    by_cases heq : t'.place = t.place
    · obtain rfl := hw.distinct t' ht' t ht (.inl heq)
      rw [hset.value, hfill.todo t' ht' h.1 v hv]
    · rw [hset.others t'.place heq (hw.place t' ht').2]
      refine hfill.done t' ht' (fun hwrite => hdone ?_) v hv
      exact (mem_writes_fill h).mpr ⟨hwrite, heq⟩
  · rw [hset.bytes, hfill.bytes]
  · rw [pending_fill] at hfree
    rw [hset.others q (fun heq => hfree t ht heq.symm) hq, hfill.others q hq hfree]

/-- Filling is progress; filling a target that is ready is strict progress. -/
theorem advances_fill {M : Machine} {p : Progress} (hd : Distinct p.pending.toList) (hp : Tidy p)
    {t : Pending} (ht : t ∈ p.pending.toList) :
    Advances M p (fill p t)
      ∧ (Ready p t → (fill p t).writes.length < p.writes.length)
      ∧ (¬Ready p t → fill p t = p) := by
  by_cases h : Ready p t
  · have hlength : (fill p t).writes.length < p.writes.length := by
      rw [fill_ready h]
      exact dropPlace_length h.1
    refine ⟨⟨pending_fill p t, tidy_fill hd hp ht h, Nat.le_of_lt hlength,
      fun R => ring_fill hp h, fun hw => ⟨[t.move], ?_, fun m hm => ?_,
        fun wants c₁ c c' hfill hrun => ?_⟩⟩, fun _ => hlength, fun hn => absurd h hn⟩
    · rw [fill_ready h]
      exact Array.toList_push
    · exact List.mem_singleton.mp hm ▸ (hw.move ht).1
    · exact filling_fill hw hp ht h hfill (Machine.runs_one.mp hrun)
  · have hsame : fill p t = p := if_neg h
    exact ⟨hsame.symm ▸ advances_refl hp, fun hr => absurd hr h, fun _ => hsame⟩

-- =============================================================== rounds

/-- A round is progress, and strict progress if any target is ready. The
induction is over the targets still to be looked at. -/
theorem advances_foldl {M : Machine} (ts : List Pending) :
    ∀ {p : Progress}, Distinct p.pending.toList → Tidy p → (∀ t ∈ ts, t ∈ p.pending.toList) →
      Advances M p (ts.foldl fill p)
        ∧ ((∃ t ∈ ts, Ready p t) → (ts.foldl fill p).writes.length < p.writes.length) := by
  induction ts with
  | nil =>
      intro p _ hp _
      exact ⟨advances_refl hp, fun ⟨t, ht, _⟩ => absurd ht (by simp)⟩
  | cons t ts ih =>
      intro p hd hp hmem
      obtain ⟨hstep, hready, hidle⟩ := advances_fill (M := M) hd hp (hmem t (List.mem_cons_self ..))
      obtain ⟨hrest, hstrict⟩ := ih (p := fill p t) (by rw [pending_fill]; exact hd) hstep.tidy
        fun t' ht' => by rw [pending_fill]; exact hmem t' (List.mem_cons_of_mem t ht')
      refine ⟨hstep.trans hrest, fun ⟨t', ht', hr⟩ => ?_⟩
      by_cases h : Ready p t
      · exact Nat.lt_of_le_of_lt hrest.length (hready h)
      · rcases List.mem_cons.mp ht' with rfl | ht'
        · exact absurd hr h
        · rw [hidle h] at hstrict
          rw [List.foldl_cons, hidle h]
          exact hstrict ⟨t', ht', hr⟩

/-- Targets that wait for each other: registers are still to be written,
and each of them is still to be read. -/
def Stuck (p : Progress) : Prop := p.writes ≠ [] ∧ ∀ q ∈ p.writes, q ∈ p.reads

theorem rounds_done {p : Progress} (h : p.writes = []) : rounds p = .ok p := by
  rw [rounds, if_pos h]

theorem rounds_next {p : Progress} (h : p.writes ≠ [])
    (hless : (round p).writes.length < p.writes.length) : rounds p = rounds (round p) := by
  rw [rounds, if_neg h, if_pos hless]

theorem rounds_stuck {p : Progress} (h : p.writes ≠ [])
    (hless : ¬(round p).writes.length < p.writes.length) : rounds p = .error .registerCycle := by
  rw [rounds, if_neg h, if_neg hless]

/-- Rounds either fill every target or stop where targets wait for each
other. -/
theorem rounds_spec {M : Machine} (p : Progress) (hd : Distinct p.pending.toList) (hp : Tidy p) :
    (∃ q, rounds p = .ok q ∧ Advances M p q ∧ q.writes = [])
      ∨ rounds p = .error .registerCycle ∧ ∃ q, Advances M p q ∧ Stuck q := by
  obtain ⟨hround, hstrict⟩ := advances_foldl (M := M) p.pending.toList hd hp fun _ ht => ht
  rw [Array.foldl_toList] at hround hstrict
  by_cases hempty : p.writes = []
  · exact .inl ⟨p, rounds_done hempty, advances_refl hp, hempty⟩
  by_cases hless : (round p).writes.length < p.writes.length
  · rw [rounds_next hempty hless]
    rcases rounds_spec (round p) (by rw [show (round p).pending = p.pending from hround.pending]; exact hd)
      hround.tidy with ⟨q, hq, hadv, hdone⟩ | ⟨hq, q, hadv, hstuck⟩
    · exact .inl ⟨q, hq, hround.trans hadv, hdone⟩
    · exact .inr ⟨hq, q, hround.trans hadv, hstuck⟩
  · refine .inr ⟨rounds_stuck hempty hless, p, advances_refl hp, hempty, ?_⟩
    intro q hq
    obtain ⟨t, ht, rfl⟩ := hp.writes q hq
    by_cases hread : t.place ∈ p.reads
    · exact hread
    · exact absurd (hstrict ⟨t, ht, hq, hread⟩) hless
termination_by p.writes.length

-- ============================================================== the queue

/-- A register is to be read for a target that has its source there, unless
that is where it belongs. -/
theorem mem_reads_enqueue (p : Progress) (t : Pending) (q : Nat) :
    q ∈ (p.enqueue t).reads ↔ q ∈ p.reads ∨ t.sourcePlace = some q ∧ q ≠ t.place := by
  unfold Progress.enqueue
  split
  · next hplace =>
    rw [hplace]
    simp only [Option.some.injEq]
    exact ⟨.inl, fun h => h.elim id fun h => absurd h.1.symm h.2⟩
  · next hplace =>
    cases hsrc : t.sourcePlace with
    | none => simp
    | some r =>
        rw [hsrc, Option.some.injEq] at hplace
        simp only [mem_addPlace, Option.some.injEq]
        constructor
        · rintro (rfl | h)
          · exact .inr ⟨rfl, hplace⟩
          · exact .inl h
        · rintro (h | ⟨rfl, -⟩)
          · exact .inr h
          · exact .inl rfl

theorem mem_writes_enqueue (p : Progress) (t : Pending) (q : Nat) :
    q ∈ (p.enqueue t).writes ↔ q ∈ p.writes ∨ t.place = q ∧ t.sourcePlace ≠ some q := by
  unfold Progress.enqueue
  split
  · next hplace => exact ⟨.inl, fun h => h.elim id fun h => absurd (h.1 ▸ hplace) h.2⟩
  · next hplace =>
    simp only [mem_addPlace]
    constructor
    · rintro (rfl | h)
      · exact .inr ⟨rfl, hplace⟩
      · exact .inl h
    · rintro (h | ⟨rfl, -⟩)
      · exact .inr h
      · exact .inl rfl

theorem pending_enqueue (p : Progress) (t : Pending) :
    (p.enqueue t).pending.toList = p.pending.toList ++ [t] := by
  unfold Progress.enqueue
  split
  · exact Array.toList_push
  · exact Array.toList_push

/-- What the queue holds after targets have been put on it. -/
theorem foldl_enqueue_spec (ts : List Pending) :
    ∀ p : Progress, (ts.foldl Progress.enqueue p).pending.toList = p.pending.toList ++ ts
      ∧ (∀ q, q ∈ (ts.foldl Progress.enqueue p).reads
        ↔ q ∈ p.reads ∨ ∃ t ∈ ts, t.sourcePlace = some q ∧ q ≠ t.place)
      ∧ ∀ q, q ∈ (ts.foldl Progress.enqueue p).writes
        ↔ q ∈ p.writes ∨ ∃ t ∈ ts, t.place = q ∧ t.sourcePlace ≠ some q := by
  induction ts with
  | nil => intro p; simp
  | cons t ts ih =>
      intro p
      obtain ⟨hpending, hreads, hwrites⟩ := ih (p.enqueue t)
      refine ⟨?_, fun q => ?_, fun q => ?_⟩
      · rw [List.foldl_cons, hpending, pending_enqueue, List.append_assoc]
        rfl
      · rw [List.foldl_cons, hreads, mem_reads_enqueue]
        simp only [List.mem_cons, or_and_right, exists_or, exists_eq_left, or_assoc]
      · rw [List.foldl_cons, hwrites, mem_writes_enqueue]
        simp only [List.mem_cons, or_and_right, exists_or, exists_eq_left, or_assoc]

end Crossing.ArgMove

namespace Crossing.Transfer

open ArgMove

/-- A queue of transfers' targets, before any is filled. -/
theorem Queue.wired {M : Machine} {i : Nat} {as : List Transfer} {ts : List Pending}
    (h : Queue M i as ts) (hsane : ∀ a ∈ as, a.Sane M) : Wired M ts where
  place t ht := by
    obtain ⟨k, a, hk, ha⟩ := h.origin t ht
    have hmem := List.mem_of_getElem? hk
    exact ⟨ha.place, (hsane a hmem).dest_spare t.place ((ha.place_iff _).mp rfl)⟩
  source t ht := by
    obtain ⟨k, a, hk, ha⟩ := h.origin t ht
    have hmem := List.mem_of_getElem? hk
    rcases ha.source with ⟨reg, n, q, hsrc, hq, hsome, hat⟩ | ⟨offset, n, hsrc, hnone, -⟩
    · exact .inl ⟨reg, n, q, hsrc, hq, hsome, (hsane a hmem).source_spare q hat⟩
    · refine .inr ⟨offset, n, hsrc, hnone, fun href => ?_⟩
      have hwide := (hsane a hmem).wide (show a.slot.isReference = true from ha.slot ▸ href)
      rwa [ha.dest] at hwide
  distinct := h.distinct

theorem tidy_queue {ts : List Pending} (h : Distinct ts) (moves : Array ArgMove) :
    Tidy (ts.foldl Progress.enqueue { moves }) := by
  obtain ⟨hpending, hreads, hwrites⟩ := foldl_enqueue_spec ts { moves }
  rw [List.nil_append] at hpending
  refine ⟨fun q hq => ?_, fun q hq => ?_, fun t ht hw q hq => ?_⟩
  · rcases (hreads q).mp hq with hq | ⟨t, ht, hsrc, hne⟩
    · cases hq
    · rw [hpending]
      refine ⟨t, ht, hsrc, hne, (hwrites t.place).mpr (.inr ⟨t, ht, rfl, fun heq => hne ?_⟩)⟩
      rw [hsrc] at heq
      injection heq
  · rcases (hwrites q).mp hq with hq | ⟨t, ht, hplace, -⟩
    · cases hq
    · exact ⟨t, by rw [hpending]; exact ht, hplace⟩
  · rw [hpending] at ht
    rcases (hwrites t.place).mp hw with hw | ⟨t', ht', hplace, hne⟩
    · cases hw
    · obtain rfl := h t' ht' t ht (.inl hplace)
      refine (hreads q).mpr (.inr ⟨t', ht', hq, fun heq => hne ?_⟩)
      rw [← heq, hq]

/-- A settled transfer supplies its register target. -/
theorem Settled.supply {M : Machine} {i : Nat} {a : Transfer} {t : Pending} {c c' : Contents}
    (h : a.Settled M i c c') (ht : a.Queued M i t) :
    t.supply M c' % 256 ^ t.size = a.value M i c % 256 ^ t.size := by
  have hsize : a.dest.size = t.size := by rw [ht.dest]; rfl
  unfold Pending.supply
  rcases ht.source with ⟨reg, n, q, hsrc, -, hsome, hat⟩ | ⟨offset, n, hsrc, -, hsame⟩
  · rw [hsrc, hsome]
    exact hsize ▸ h.held q hat
  · rw [hsrc]
    by_cases href : a.isReference = true
    · have href' : t.slot.isReference = true := ht.slot ▸ href
      simp only [if_pos href']
      rw [ht.slot, ht.null, h.slot href, M.handle_mod, value, if_pos href]
    · have href' : ¬t.slot.isReference = true := ht.slot ▸ href
      simp only [if_neg href']
      have hkept := h.kept (Bool.eq_false_iff.mpr href) offset n (hsame.trans hsrc)
      rw [← hsize, hkept, Nat.mod_mod, value, if_neg href]

/-- What carrying out planned moves achieves: each target holds what its
transfer is for, each reference is in its slot, and nothing else has
changed. -/
structure Delivered (M : Machine) (as : List Transfer) (c c' : Contents) : Prop where
  values : ∀ (k : Nat) (a : Transfer), as[k]? = some a → M.Holds c' a.dest (a.value M k c)
  slots : ∀ a ∈ as, a.isReference = true →
    c'.load a.slot.value 4 = M.content c a.source % 256 ^ 4
  regs : ∀ q, M.spare ≠ some q → (∀ a ∈ as, ¬a.Converts M q ∧ ¬M.At a.dest q) → c'.reg q = c.reg q
  bytes : ∀ o, (∀ a ∈ as, ¬a.Writes o) → c'.byte o = c.byte o

/-- Once the first phase is over, filling can begin. -/
theorem filling_queue {M : Machine} {as : List Transfer} (ts : List Pending) {c c₁ : Contents}
    (hsettled : ∀ (k : Nat) (a : Transfer), as[k]? = some a → a.Settled M k c c₁)
    (moves : Array ArgMove) :
    Filling M (fun t v => ∃ (k : Nat) (a : Transfer), as[k]? = some a ∧ a.Queued M k t
      ∧ v = a.value M k c) (ts.foldl Progress.enqueue { moves }) c₁ c₁ := by
  obtain ⟨hpending, -, hwrites⟩ := foldl_enqueue_spec ts { moves }
  rw [List.nil_append] at hpending
  refine ⟨fun t _ _ v hv => ?_, fun t ht hdone v hv => ?_, rfl, fun _ _ _ => rfl⟩
  · obtain ⟨k, a, hk, ha, rfl⟩ := hv
    exact (hsettled k a hk).supply ha
  · obtain ⟨k, a, hk, ha, rfl⟩ := hv
    -- a target that is not to be written is in its place
    have hplace : t.sourcePlace = some t.place := by
      by_cases heq : t.sourcePlace = some t.place
      · exact heq
      · exact absurd ((hwrites t.place).mpr (.inr ⟨t, hpending ▸ ht, rfl, heq⟩)) hdone
    rcases ha.source with ⟨reg, n, q, -, -, hsome, hat⟩ | ⟨_, _, -, hnone, -⟩
    · obtain rfl : t.place = q := by rw [hplace] at hsome; injection hsome
      have hheld := (hsettled k a hk).held t.place hat
      rwa [ha.dest] at hheld
    · rw [hnone] at hplace
      cases hplace

/-- Planning for transfers, from the three lists that they are kept in. -/
def planAll (model : RegisterModel) (as : List Transfer) : Except Violation (List ArgMove) :=
  plan model (as.map (·.dest)) (as.map (·.source)) (as.map (·.slot))

theorem planAll_bind (model : RegisterModel) (as : List Transfer) :
    planAll model as
      = (firstAll model {} 0 (as.map (·.dest)) (as.map (·.source)) (as.map (·.slot))).bind
          fun p => (rounds p).map (·.moves.toList) := by
  simp only [planAll, plan, List.length_map, ne_eq, not_true_eq_false, if_false]
  rfl

theorem planAll_eq {model : RegisterModel} {as : List Transfer} {p : Progress}
    (h : firstAll model {} 0 (as.map (·.dest)) (as.map (·.source)) (as.map (·.slot)) = .ok p) :
    planAll model as = (rounds p).map (·.moves.toList) := by
  rw [planAll_bind, h]
  rfl

/-- Planning transfers that keep apart gives moves that deliver them, or
refuses because register targets wait for each other. -/
theorem plan_spec {M : Machine} {as : List Transfer} (hsane : ∀ a ∈ as, a.Sane M)
    (hpairs : as.Pairwise (Apart M)) :
    (∃ ms, plan M.model (as.map (·.dest)) (as.map (·.source)) (as.map (·.slot)) = .ok ms
        ∧ (∀ m ∈ ms, M.Placed m) ∧ ∀ c c', M.Runs ms c c' → Delivered M as c c')
      ∨ plan M.model (as.map (·.dest)) (as.map (·.source)) (as.map (·.slot))
          = .error .registerCycle
        ∧ ∃ q, Queue M 0 as q.pending.toList ∧ Tidy q ∧ Stuck q := by
  obtain ⟨ms, ts, hplaced, hruns, hfirst, hqueue⟩ := firstAll_spec as 0 {} hsane hpairs
  have hplan := planAll_eq hfirst
  unfold planAll at hplan
  have hwired := hqueue.wired hsane
  obtain ⟨hpending, -, -⟩ := foldl_enqueue_spec ts { moves := (#[] : Array ArgMove) ++ ms }
  rw [List.nil_append] at hpending
  rcases rounds_spec (ts.foldl Progress.enqueue { moves := (#[] : Array ArgMove) ++ ms })
    (by rw [hpending]; exact hwired.distinct) (tidy_queue hwired.distinct _) with ⟨q, hq, hadv, hdone⟩ | ⟨hq, q, hadv, hstuck⟩
  · obtain ⟨ms', hms', hplaced', hruns'⟩ := hadv.moves (by rw [hpending]; exact hwired)
    rw [moves_foldl_enqueue] at hms'
    have hmoves : q.moves.toList = ms ++ ms' := by rw [hms']; simp
    refine .inl ⟨ms ++ ms', by rw [hplan, hq, ← hmoves]; rfl, fun m hm => ?_, fun c c' hrun => ?_⟩
    · exact (List.mem_append.mp hm).elim (hplaced m) (hplaced' m)
    · obtain ⟨c₁, hrun, hrun'⟩ := (Machine.runs_append _ _).mp hrun
      obtain ⟨hsettled, hleaves⟩ := hruns c c₁ hrun
      simp only [Nat.zero_add] at hsettled
      have hfill := hruns' _ c₁ c₁ c' (filling_queue ts hsettled _) hrun'
      have hq : q.pending.toList = ts := by rw [hadv.pending, hpending]
      have hload := Contents.load_of_byte hfill.bytes
      refine ⟨fun k a hk => ?_, fun a ha href => ?_, fun r hr hfree => ?_, fun o hfree => ?_⟩
      · cases hdest : a.dest with
        | register reg size =>
            obtain ⟨t, ht, hta⟩ := hqueue.covers k a hk (by rw [hdest]; rfl)
            rw [Nat.zero_add] at hta
            have hvalue := hfill.done t (hq ▸ ht) (by rw [hdone]; simp) _ ⟨k, a, hk, hta, rfl⟩
            obtain ⟨rfl, rfl⟩ : t.dest = reg ∧ t.size = size := by
              have := hta.dest
              rw [hdest] at this
              injection this with hreg hsize
              exact ⟨hreg.symm, hsize.symm⟩
            exact ⟨t.place, hta.place, hvalue⟩
        | stack offset size =>
            exact (hload _ _).trans ((hsettled k a hk).stack offset size hdest)
      · obtain ⟨k, hk⟩ := List.getElem?_of_mem ha
        exact (hload _ _).trans ((hsettled k a hk).slot href)
      · rw [hfill.others r hr fun t ht heq => ?_, hleaves.regs r hr fun a ha => (hfree a ha).1]
        rw [hq] at ht
        obtain ⟨k, a, hk, hta⟩ := hqueue.origin t ht
        exact (hfree a (List.mem_of_getElem? hk)).2 ((hta.place_iff r).mp heq)
      · rw [hfill.bytes, hleaves.bytes o hfree]
  · refine .inr ⟨by rw [hplan, hq]; rfl, q, ?_, hadv.tidy, hstuck⟩
    rw [hadv.pending, hpending]
    exact hqueue

/-- Some element of a list has the greatest rank. -/
theorem exists_top (rank : Nat → Nat) (qs : List Nat) (h : qs ≠ []) :
    ∃ q ∈ qs, ∀ r ∈ qs, rank r ≤ rank q := by
  induction qs with
  | nil => exact absurd rfl h
  | cons q qs ih =>
      by_cases hqs : qs = []
      · refine ⟨q, List.mem_cons_self .., fun r hr => ?_⟩
        rw [hqs] at hr
        exact Nat.le_of_eq (congrArg rank (List.mem_singleton.mp hr))
      · obtain ⟨top, htop, hmax⟩ := ih hqs
        by_cases hle : rank top ≤ rank q
        · refine ⟨q, List.mem_cons_self .., fun r hr => ?_⟩
          rcases List.mem_cons.mp hr with rfl | hr
          · exact Nat.le_refl _
          · exact Nat.le_trans (hmax r hr) hle
        · refine ⟨top, List.mem_cons_of_mem q htop, fun r hr => ?_⟩
          rcases List.mem_cons.mp hr with rfl | hr
          · omega
          · exact hmax r hr

/-- Registers that can be ranked so that every move goes up form no cycle:
planning gives moves. The target of the highest rank is not waited for. -/
theorem plan_ranked {M : Machine} {as : List Transfer} (hsane : ∀ a ∈ as, a.Sane M)
    (hpairs : as.Pairwise (Apart M)) (rank : Nat → Nat)
    (hrank : ∀ a ∈ as, ∀ q r, M.At a.source q → M.At a.dest r → q ≠ r → rank q < rank r) :
    ∃ ms, plan M.model (as.map (·.dest)) (as.map (·.source)) (as.map (·.slot)) = .ok ms
      ∧ (∀ m ∈ ms, M.Placed m) ∧ ∀ c c', M.Runs ms c c' → Delivered M as c c' := by
  rcases plan_spec hsane hpairs with h | ⟨-, q, hqueue, htidy, hne, hstuck⟩
  · exact h
  · obtain ⟨top, htop, hmax⟩ := exists_top rank q.writes hne
    obtain ⟨t, ht, hsrc, hmoves, hwrite⟩ := htidy.reads top (hstuck top htop)
    obtain ⟨k, a, hk, hta⟩ := hqueue.origin t ht
    have hlt := hrank a (List.mem_of_getElem? hk) top t.place ((hta.sourcePlace_iff top).mp hsrc)
      ((hta.place_iff _).mp rfl) hmoves
    exact absurd (hmax t.place hwrite) (Nat.not_le.mpr hlt)

end Crossing.Transfer
