import Mathlib.Data.Finset.Card
import Mathlib.Tactic.Choose
import Crossing.Proofs.Argument.Rounds

/-
When planning refuses. Of the transfers only the moves between different
registers matter: planning refuses if some of them form a cycle, and plans
everything else. One half is that no round ever fills a register of a cycle
(`Advances.ring`). The other half counts: where the rounds stop, each
register still to be written is the source of a move to another such
register, and no two of these moves share a target, so together they are
written to all the registers they come from.

Nothing is asked of frame slots here: whether planning refuses does not
depend on them.
-/
namespace Crossing.Transfer

open ArgMove

variable {M : Machine} {as : List Transfer}

-- ================================================================ cycles

/-- A transfer from one physical register to another one. -/
def Shifts (M : Machine) (a : Transfer) (q r : Nat) : Prop :=
  M.At a.source q ∧ M.At a.dest r ∧ q ≠ r

/-- Some of the transfers, at least one, are between different registers
and have together as targets just the registers they have as sources. -/
def Cyclic (M : Machine) (as : List Transfer) : Prop :=
  ∃ ring : List Transfer, ring ≠ [] ∧ (∀ a ∈ ring, a ∈ as ∧ ∃ q r, a.Shifts M q r)
    ∧ ∀ q, (∃ a ∈ ring, M.At a.dest q) ↔ ∃ a ∈ ring, M.At a.source q

/-- Registers that can be ranked so that every move goes up form no cycle:
going back along a cycle, ranks would fall for ever. -/
theorem not_cyclic_of_rank (rank : Nat → Nat)
    (h : ∀ a ∈ as, ∀ q r, a.Shifts M q r → rank q < rank r) : ¬Cyclic M as := by
  rintro ⟨ring, hne, hring, hsame⟩
  have hhigh : ∀ n r, (∃ a ∈ ring, M.At a.dest r) → n ≤ rank r := by
    intro n
    induction n with
    | zero => exact fun r _ => Nat.zero_le _
    | succ n ih =>
        rintro r ⟨a, ha, hr⟩
        obtain ⟨hmem, q, r', hshift⟩ := hring a ha
        obtain rfl := hr.unique hshift.2.1
        have hq := ih q ((hsame q).mpr ⟨a, ha, hshift.1⟩)
        exact Nat.lt_of_le_of_lt hq (h a hmem q r hshift)
  obtain ⟨a, ha⟩ := List.exists_mem_of_ne_nil ring hne
  obtain ⟨-, q, r, hshift⟩ := hring a ha
  exact absurd (hhigh (rank r + 1) r ⟨a, ha, hshift.2.1⟩) (by omega)

/-- Moves along a chain of different registers form no cycle. -/
theorem not_cyclic_of_chain (chain : List Nat) (hnodup : chain.Nodup)
    (h : ∀ a ∈ as, ∀ q r, a.Shifts M q r → ∃ k, chain[k]? = some q ∧ chain[k + 1]? = some r) :
    ¬Cyclic M as := by
  have hrank : ∀ k q, chain[k]? = some q → chain.idxOf q = k := by
    intro k q hk
    obtain ⟨hlt, rfl⟩ := List.getElem?_eq_some_iff.mp hk
    exact hnodup.idxOf_getElem k hlt
  refine not_cyclic_of_rank chain.idxOf fun a ha q r hshift => ?_
  obtain ⟨k, hq, hr⟩ := h a ha q r hshift
  rw [hrank k q hq, hrank (k + 1) r hr]
  exact Nat.lt_succ_self k

-- ============================================================= the queue

/-- The first phase never refuses transfers that share no register. It puts
their register targets in a queue. -/
theorem firstAll_queue (as : List Transfer) :
    ∀ (i : Nat) (p : Progress), (∀ a ∈ as, a.Named M) → as.Pairwise (Unshared M) →
      ∃ (ms : List ArgMove) (ts : List Pending),
        firstAll M.model p i (as.map (·.dest)) (as.map (·.source)) (as.map (·.slot))
          = .ok (ts.foldl Progress.enqueue { p with moves := p.moves ++ ms })
        ∧ Queue M i as ts := by
  induction as with
  | nil =>
      intro i p _ _
      refine ⟨[], [], ?_, fun t ht => absurd ht (by simp), fun k a hk => absurd hk (by simp),
        fun t ht => absurd ht (by simp)⟩
      rw [Array.appendList_nil]
      rfl
  | cons a as ih =>
      intro i p hnamed hpairs
      obtain ⟨hunshared, hpairs⟩ := List.pairwise_cons.mp hpairs
      obtain ⟨early, source, last, ts₁, -, -, hfirst, hcases⟩ :=
        first_shape (hnamed a (List.mem_cons_self ..)) i p
      obtain ⟨ms, ts₂, hall, hqueue⟩ := ih (i + 1)
        (ts₁.foldl Progress.enqueue { p with moves := p.moves ++ (early ++ last) })
        (fun b hb => hnamed b (List.mem_cons_of_mem a hb)) hpairs
      refine ⟨early ++ last ++ ms, ts₁ ++ ts₂, ?_, ?_⟩
      · have hmoves : p.moves ++ (early ++ last) ++ ms = p.moves ++ (early ++ last ++ ms) :=
          Array.toList_inj.mp (by simp)
        rw [List.map_cons, List.map_cons, List.map_cons, firstAll, hfirst]
        refine hall.trans ?_
        rw [foldl_enqueue_moves, moves_foldl_enqueue, List.foldl_append, hmoves]
      · rcases hcases with ⟨dest, size, t, -, -, rfl, ht⟩ | ⟨dest, size, hdest, -, rfl⟩
        · refine hqueue.cons hunshared (fun t' ht' => ?_) (fun t₁ h₁ t₂ h₂ => ?_)
            fun _ => ⟨t, List.mem_singleton.mpr rfl⟩
          · exact List.mem_singleton.mp ht' ▸ ht
          · exact (List.mem_singleton.mp h₁).trans (List.mem_singleton.mp h₂).symm
        · refine hqueue.cons hunshared (fun t ht => absurd ht (by simp))
            (fun t ht => absurd ht (by simp)) fun hreg => ?_
          rw [hdest] at hreg
          cases hreg

/-- A target in the queue is a move between different registers if it is to
be written and comes from a register. -/
theorem Queued.shifts {a : Transfer} {i : Nat} {t : Pending} (h : a.Queued M i t) {q : Nat}
    (hsource : t.sourcePlace = some q) (hne : q ≠ t.place) : a.Shifts M q t.place :=
  ⟨(h.sourcePlace_iff q).mp hsource, (h.place_iff _).mp rfl, hne⟩

/-- A cycle among the transfers is a ring in the queue. -/
theorem Queue.ring {ts : List Pending} (hqueue : Queue M 0 as ts) {ring : List Transfer}
    (hring : ∀ a ∈ ring, a ∈ as ∧ ∃ q r, a.Shifts M q r)
    (hsame : ∀ q, (∃ a ∈ ring, M.At a.dest q) ↔ ∃ a ∈ ring, M.At a.source q)
    (moves : Array ArgMove) :
    Ring (ts.foldl Progress.enqueue { moves }) fun q => ∃ a ∈ ring, M.At a.dest q := by
  obtain ⟨hpending, -, hwrites⟩ := foldl_enqueue_spec ts { moves }
  rw [List.nil_append] at hpending
  -- each member of the ring is in the queue, with its two registers
  have hqueued : ∀ a ∈ ring, ∃ t ∈ ts, (∀ q, t.place = q ↔ M.At a.dest q)
      ∧ ∀ q, t.sourcePlace = some q ↔ M.At a.source q := by
    intro a ha
    obtain ⟨hmem, q, r, -, ⟨reg, size, hdest, -⟩, -⟩ := hring a ha
    obtain ⟨k, hk⟩ := List.getElem?_of_mem hmem
    obtain ⟨t, ht, hta⟩ := hqueue.covers k a hk (by rw [hdest]; rfl)
    exact ⟨t, ht, hta.place_iff, hta.sourcePlace_iff⟩
  intro q hq
  refine ⟨?_, ?_⟩
  · obtain ⟨a, ha, hdest⟩ := hq
    obtain ⟨-, r, s, hsource, hdest', hne⟩ := hring a ha
    obtain rfl := hdest.unique hdest'
    obtain ⟨t, ht, hplace, hsourcePlace⟩ := hqueued a ha
    refine (hwrites q).mpr (.inr ⟨t, ht, (hplace q).mpr hdest, fun heq => hne ?_⟩)
    exact hsource.unique ((hsourcePlace q).mp heq)
  · obtain ⟨a, ha, hsource⟩ := (hsame q).mp hq
    obtain ⟨t, ht, hplace, hsourcePlace⟩ := hqueued a ha
    exact ⟨t, by rw [hpending]; exact ht, (hsourcePlace q).mpr hsource, a, ha, (hplace _).mp rfl⟩

/-- Where rounds stop short, the registers still to be written are those of
a cycle. -/
theorem Queue.cyclic {p : Progress} (hqueue : Queue M 0 as p.pending.toList) (htidy : Tidy p)
    (hstuck : Stuck p) : Cyclic M as := by
  classical
  obtain ⟨hne, hread⟩ := hstuck
  have hnext : ∀ q ∈ p.writes, ∃ r, (∃ t ∈ p.pending.toList, t.sourcePlace = some q
      ∧ t.place = r ∧ q ≠ r) ∧ r ∈ p.writes := by
    intro q hq
    obtain ⟨t, ht, hsource, hne, hwrite⟩ := htidy.reads q (hread q hq)
    exact ⟨t.place, ⟨t, ht, hsource, rfl, hne⟩, hwrite⟩
  choose! next hmove hwrite using hnext
  -- different registers are read for different targets, so no register is left out
  have hinj : Set.InjOn next p.writes.toFinset := by
    intro q hq q' hq' heq
    obtain ⟨t, ht, hsource, hplace, -⟩ := hmove q (List.mem_toFinset.mp hq)
    obtain ⟨t', ht', hsource', hplace', -⟩ := hmove q' (List.mem_toFinset.mp hq')
    obtain rfl := hqueue.distinct t ht t' ht' (.inl (by rw [hplace, hplace', heq]))
    rw [hsource] at hsource'
    injection hsource'
  have himage : p.writes.toFinset.image next = p.writes.toFinset := by
    refine Finset.eq_of_subset_of_card_le (fun r hr => ?_) ?_
    · obtain ⟨q, hq, rfl⟩ := Finset.mem_image.mp hr
      exact List.mem_toFinset.mpr (hwrite q (List.mem_toFinset.mp hq))
    · rw [Finset.card_image_of_injOn hinj]
  have hshift : ∀ q ∈ p.writes, ∃ a ∈ as, a.Shifts M q (next q) := by
    intro q hq
    obtain ⟨t, ht, hsource, hplace, hne⟩ := hmove q hq
    obtain ⟨k, a, hk, ha⟩ := hqueue.origin t ht
    exact ⟨a, List.mem_of_getElem? hk, hplace ▸ ha.shifts hsource (hplace ▸ hne)⟩
  refine ⟨as.filter fun a => ∃ q ∈ p.writes, a.Shifts M q (next q), ?_, ?_, fun r => ⟨?_, ?_⟩⟩
  · obtain ⟨q, hq⟩ := List.exists_mem_of_ne_nil _ hne
    obtain ⟨a, ha, hshifts⟩ := hshift q hq
    refine List.ne_nil_of_mem (a := a) (List.mem_filter.mpr ⟨ha, ?_⟩)
    exact decide_eq_true ⟨q, hq, hshifts⟩
  · intro a ha
    obtain ⟨ha, hshifts⟩ := List.mem_filter.mp ha
    obtain ⟨q, -, hshifts⟩ := of_decide_eq_true hshifts
    exact ⟨ha, q, next q, hshifts⟩
  · rintro ⟨a, ha, hdest⟩
    obtain ⟨ha, hshifts⟩ := List.mem_filter.mp ha
    obtain ⟨q, hq, hshifts⟩ := of_decide_eq_true hshifts
    obtain rfl := hdest.unique hshifts.2.1
    obtain ⟨b, hb, hnext⟩ := hshift _ (hwrite q hq)
    exact ⟨b, List.mem_filter.mpr ⟨hb, decide_eq_true ⟨_, hwrite q hq, hnext⟩⟩, hnext.1⟩
  · rintro ⟨a, ha, hsource⟩
    obtain ⟨ha, hshifts⟩ := List.mem_filter.mp ha
    obtain ⟨q, hq, hshifts⟩ := of_decide_eq_true hshifts
    obtain rfl := hsource.unique hshifts.1
    have hmem : r ∈ p.writes.toFinset.image next := by
      rw [himage]
      exact List.mem_toFinset.mpr hq
    obtain ⟨s, hs, rfl⟩ := Finset.mem_image.mp hmem
    obtain ⟨b, hb, hinto⟩ := hshift s (List.mem_toFinset.mp hs)
    exact ⟨b, List.mem_filter.mpr ⟨hb, decide_eq_true ⟨s, List.mem_toFinset.mp hs, hinto⟩⟩,
      hinto.2.1⟩

-- ============================================================== planning

/-- Planning refuses just the transfers with a cycle. -/
theorem planAll_cases (hnamed : ∀ a ∈ as, a.Named M) (hpairs : as.Pairwise (Unshared M)) :
    ¬Cyclic M as ∧ (∃ ms, planAll M.model as = .ok ms)
      ∨ Cyclic M as ∧ planAll M.model as = .error .registerCycle := by
  obtain ⟨ms, ts, hfirst, hqueue⟩ := firstAll_queue as 0 {} hnamed hpairs
  have hplan := planAll_eq hfirst
  obtain ⟨hpending, -, -⟩ := foldl_enqueue_spec ts { moves := (#[] : Array ArgMove) ++ ms }
  rw [List.nil_append] at hpending
  rcases rounds_spec (M := M) (ts.foldl Progress.enqueue { moves := (#[] : Array ArgMove) ++ ms })
    (by rw [hpending]; exact hqueue.distinct) (tidy_queue hqueue.distinct _)
    with ⟨p, hp, hadv, hdone⟩ | ⟨hp, p, hadv, hstuck⟩
  · refine .inl ⟨fun ⟨ring, hne, hring, hsame⟩ => ?_, _, by rw [hplan, hp]; rfl⟩
    obtain ⟨a, ha⟩ := List.exists_mem_of_ne_nil ring hne
    obtain ⟨-, q, r, hshift⟩ := hring a ha
    have hwrite := (hadv.ring _ (hqueue.ring hring hsame _) r ⟨a, ha, hshift.2.1⟩).1
    rw [hdone] at hwrite
    cases hwrite
  · refine .inr ⟨Queue.cyclic ?_ hadv.tidy hstuck, by rw [hplan, hp]; rfl⟩
    rw [hadv.pending, hpending]
    exact hqueue

/-- Planning always comes to an end. It refuses, with a message that says
so, if and only if some of the moves between different registers form a
cycle. So moves along a chain are planned, whatever the chain's length and
the order of the transfers. -/
theorem plan_refuses_iff (hnamed : ∀ a ∈ as, a.Named M) (hpairs : as.Pairwise (Unshared M)) :
    ((∃ ms, planAll M.model as = .ok ms) ∨ planAll M.model as = .error .registerCycle)
      ∧ (planAll M.model as = .error .registerCycle ↔ Cyclic M as)
      ∧ Violation.registerCycle.message
        = "move_arguments: register cycle, no progress possible"
      ∧ ∀ chain : List Nat, chain.Nodup →
        (∀ a ∈ as, ∀ q r, a.Shifts M q r → ∃ k, chain[k]? = some q ∧ chain[k + 1]? = some r) →
        ∃ ms, planAll M.model as = .ok ms := by
  rcases planAll_cases hnamed hpairs with ⟨hfree, ms, hplan⟩ | ⟨hcyclic, hplan⟩
  · refine ⟨.inl ⟨ms, hplan⟩, ⟨fun herror => ?_, fun h => absurd h hfree⟩, rfl,
      fun _ _ _ => ⟨ms, hplan⟩⟩
    rw [hplan] at herror
    cases herror
  · exact ⟨.inr hplan, ⟨fun _ => hcyclic, fun _ => hplan⟩, rfl,
      fun chain hnodup h => absurd hcyclic (not_cyclic_of_chain chain hnodup h)⟩

/-- Two registers that change places, beside one that stays where it is. -/
def swap : List Transfer :=
  [⟨.register ⟨1⟩ 8, .register ⟨2⟩ 8, Offset.noReference⟩,
    ⟨.register ⟨3⟩ 4, .register ⟨3⟩ 8, Offset.noReference⟩,
    ⟨.register ⟨2⟩ 8, .register ⟨1⟩ 8, Offset.noReference⟩]

/-- A swap is refused: its two moves are a cycle. -/
theorem plan_refuses_iff_swap :
    (∀ a ∈ swap, a.Named ⟨.flat 8, 0, none⟩) ∧ swap.Pairwise (Unshared ⟨.flat 8, 0, none⟩)
      ∧ Cyclic ⟨.flat 8, 0, none⟩ swap
      ∧ planAll (.flat 8) swap = .error .registerCycle := by
  have hnamed : ∀ a ∈ swap, a.Named ⟨.flat 8, 0, none⟩ := by
    intro a ha
    simp only [swap, List.mem_cons, List.not_mem_nil, or_false] at ha
    rcases ha with rfl | rfl | rfl
    all_goals
      refine ⟨?_, ?_, fun href => absurd href (by decide)⟩
      · rintro _ _ ⟨⟩
        exact ⟨_, rfl⟩
      · rintro _ _ ⟨⟩
        exact ⟨_, rfl⟩
  have hat {n : Int} := @Machine.at_flat ⟨.flat 8, 0, none⟩ 8 rfl n
  have h₁ {size q : Nat} := @hat 1 (by decide) size q
  have h₂ {size q : Nat} := @hat 2 (by decide) size q
  have h₃ {size q : Nat} := @hat 3 (by decide) size q
  have hpairs : swap.Pairwise (Unshared ⟨.flat 8, 0, none⟩) := by
    simp only [swap, List.pairwise_cons, List.mem_cons, List.not_mem_nil, or_false,
      forall_eq_or_imp, forall_eq, false_imp_iff, implies_true, List.Pairwise.nil, and_true]
    refine ⟨⟨⟨fun q => ?_, fun q => ?_⟩, ⟨fun q => ?_, fun q => ?_⟩⟩, ⟨fun q => ?_, fun q => ?_⟩⟩
    all_goals
      simp only [h₁, h₂, h₃]
      omega
  have hcyclic : Cyclic ⟨.flat 8, 0, none⟩ swap := by
    refine ⟨[⟨.register ⟨2⟩ 8, .register ⟨1⟩ 8, Offset.noReference⟩,
      ⟨.register ⟨1⟩ 8, .register ⟨2⟩ 8, Offset.noReference⟩], List.cons_ne_nil _ _, ?_, ?_⟩
    · simp only [List.mem_cons, List.not_mem_nil, or_false, forall_eq_or_imp, forall_eq, Shifts,
        h₁, h₂, swap]
      exact ⟨⟨by simp, 1, 2, rfl, rfl, by decide⟩, by simp, 2, 1, rfl, rfl, by decide⟩
    · intro q
      simp only [List.mem_cons, List.not_mem_nil, or_false, exists_eq_or_imp, exists_eq_left,
        h₁, h₂]
      exact or_comm
  exact ⟨hnamed, hpairs, hcyclic, (plan_refuses_iff hnamed hpairs).2.1.mpr hcyclic⟩

end Crossing.Transfer
