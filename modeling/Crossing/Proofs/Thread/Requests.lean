import Crossing.Proofs.Thread.Stopped
import Mathlib.Data.Set.Card

/-
Suspend requests, counted. `Sound` keeps the books against the one
suspension that can be in force; here they are read the other way round,
from the threads: what a listed thread holds is the number of suspensions
in progress that are not its own, whoever came or went since they began,
and whoever takes a request back finds one.
-/
namespace Crossing

namespace World

-- ========================================================= in progress

/-- The actors whose suspension is in progress: they have asked everybody
else to stop, and have not let them go yet. -/
def suspending (w : World) : Set Nat :=
  { a | ∃ suspender, (w.actors a).suspender? = some suspender }

/-- Those of them that did not ask on behalf of thread `id`. -/
def suspendingOthers (w : World) (id : Nat) : Set Nat :=
  { a | ∃ suspender, (w.actors a).suspender? = some suspender ∧ suspender ≠ some id }

section InProgress

variable {w : World} {a id : Nat}

/-- Only who has the lock has a suspension in progress. -/
theorem Sound.suspender?_eq_some (hs : w.Sound) {suspender : Option Nat} :
    (w.actors a).suspender? = some suspender
      ↔ w.suspensionLock = some a ∧ w.inForce = some suspender := by
  by_cases hlock : w.suspensionLock = some a
  · rw [inForce_of_lock hlock]
    exact ⟨fun h => ⟨hlock, h⟩, fun h => h.2⟩
  · rw [(hs.ordered.free hlock).suspender?_eq_none nofun nofun]
    exact ⟨nofun, fun h => absurd h.1 hlock⟩

/-- A suspension in force is somebody's, and nobody else's. -/
theorem lock_of_inForce {suspender : Option Nat} (hforce : w.inForce = some suspender) :
    ∃ b, ∀ a, w.suspensionLock = some a ↔ a = b := by
  obtain ⟨b, hlock, -⟩ := Option.bind_eq_some_iff.mp hforce
  refine ⟨b, fun a => ?_⟩
  rw [hlock, Option.some_inj]
  exact eq_comm

/-- There are as many suspensions in progress as the list has counted. -/
theorem Sound.encard_suspending (hs : w.Sound) :
    w.suspending.encard = (w.suspendAllCount : ℕ∞) := by
  rw [hs.ledger.total]
  cases hforce : w.inForce with
  | none =>
      have hnobody : w.suspending = ∅ := by
        ext a
        simp [suspending, hs.suspender?_eq_some, hforce]
      rw [hnobody, Set.encard_empty]
      rfl
  | some suspender =>
      obtain ⟨b, hlock⟩ := lock_of_inForce hforce
      have hone : w.suspending = {b} := by
        ext a
        simp [suspending, hs.suspender?_eq_some, hforce, hlock]
      rw [hone, Set.encard_singleton]
      rfl

/-- A thread has to hold one request for each suspension that is not its
own. -/
theorem Sound.encard_suspendingOthers (hs : w.Sound) (id : Nat) :
    (w.suspendingOthers id).encard = (requestsOn w.inForce id : ℕ∞) := by
  cases hforce : w.inForce with
  | none =>
      have hnobody : w.suspendingOthers id = ∅ := by
        ext a
        simp [suspendingOthers, hs.suspender?_eq_some, hforce]
      rw [hnobody, Set.encard_empty]
      rfl
  | some suspender =>
      obtain ⟨b, hlock⟩ := lock_of_inForce hforce
      rw [requestsOn_some]
      by_cases hown : suspender = some id
      · have hnobody : w.suspendingOthers id = ∅ := by
          ext a
          simp [suspendingOthers, hs.suspender?_eq_some, hforce, hown]
        rw [hnobody, Set.encard_empty, if_pos hown]
        rfl
      · have hone : w.suspendingOthers id = {b} := by
          ext a
          simp [suspendingOthers, hs.suspender?_eq_some, hforce, hlock, hown]
        rw [hone, Set.encard_singleton, if_neg hown]
        rfl

end InProgress

-- ========================================================== state word

/-- The request bit of the word that generated code reads. -/
theorem suspendRequest_bit (word : StateWord) :
    word.bits &&& ThreadFlag.suspendRequest ≠ 0 ↔ word.suspend = true := by
  obtain ⟨state, suspend, checkpoint⟩ := word
  cases state with
  | _ => cases suspend with
    | _ => cases checkpoint with
      | _ => decide

-- ========================================================= no shortage

section Refusal

variable {w w' : World} {a b : Nat} {v : Violation} {task : Task} {m : Move}

/-- A task that works on its actor's own record is refused for the
thread's state alone. -/
theorem performOwn_refused {t : ThreadRecord} (h : w.performOwn t task = .refused v w') :
    v = .mustBeRunnable t.id ∨ v = .mustBeNative t.id := by
  cases task with
  | leave =>
      simp only [performOwn] at h
      split at h
      · cases h
        exact .inl rfl
      · split at h
        · cases h
        · cases h
  | enter =>
      simp only [performOwn] at h
      split at h
      · cases h
        exact .inr rfl
      · split at h
        · cases h
        · split at h
          · cases h
          · cases h
  | leaveSwap seen => simp only [performOwn] at h; split at h <;> cases h
  | enterSwap seen => simp only [performOwn] at h; split at h <;> cases h
  | poll => simp only [performOwn] at h; split at h <;> [skip; split at h] <;> cases h
  | runCheckpoints => simp only [performOwn] at h; split at h <;> cases h
  | awaitResume => simp only [performOwn] at h; split at h <;> cases h
  | depart => simp only [performOwn] at h; split at h <;> cases h
  | _ => cases h

/-- Nobody who takes requests back finds one missing. -/
theorem Sound.perform_refused (hs : w.Sound) (h : w.perform a task = .refused v w') (id : Nat) :
    v ≠ .noSuspendRequest id := by
  rintro rfl
  cases task with
  | requestCheckpoint _ _ => cases h
  | enlist _ => cases h
  | unlist => cases h
  | lockSuspension => simp only [perform] at h; split at h <;> cases h
  | requestAll => cases h
  | awaitStopped _ => simp only [perform] at h; split at h <;> cases h
  | releaseAll =>
      simp only [perform] at h
      split at h
      · cases h
      · next g hguard =>
          rw [(hs.release_ok hguard).1] at h
          cases h
  | unlockSuspension => cases h
  | checkPhase marking =>
      simp only [perform, Collector.admits] at h
      split at h
      · cases h
      · next v hadmits =>
          cases h
          split at hadmits
          · cases marking with
            | true => cases hadmits
            | false => cases hadmits
          · cases hadmits
  | flipAll _ => cases h
  | flipOne _ _ => cases h
  | flipList _ => cases h
  | flipCollector _ => cases h
  | bookCycle => cases h
  | _ =>
      simp only [perform] at h
      split at h
      · rcases performOwn_refused h with h | h <;> cases h
      · cases h

/-- Who is refused something has just been, or was before. -/
theorem step?_refuses (hs : w.Sound) (hstep : w.step? a = some w')
    (hrefusal : (w'.actors b).refusal = some v) :
    (w.actors b).refusal = some v ∨ ∃ task w₁, w.perform a task = .refused v w₁ := by
  by_cases hb : b = a
  · subst hb
    unfold step? at hstep
    split at hstep
    · cases hstep
    · next task rest hagenda =>
        have hdeed := perform_deed hs.ledger.toNumbered b task
        split at hstep
        · cases hstep
        · next v' w₁ hperform =>
            cases hstep
            rw [setActor_actors, if_pos rfl] at hrefusal
            cases hrefusal
            exact .inr ⟨task, w₁, hperform⟩
        · next tasks w₁ hperform =>
            cases hstep
            rw [hperform] at hdeed
            rw [setActor_actors, if_pos rfl] at hrefusal
            refine .inl ?_
            cases hdeed with
            | plain _ hplain => rwa [hplain.actors] at hrefusal
            | enlist => simpa [World.enlist] using hrefusal
            | unlist => simpa using hrefusal
            | request =>
                obtain ⟨records, hrecords⟩ := w.requestAll_frame b
                rwa [hrecords] at hrefusal
            | stopped _ => simpa using hrefusal
            | released hguard hreleased =>
                obtain ⟨records, hrecords⟩ := letAllGo_frame _ _
                rw [hs.released_eq hguard hreleased, hrecords] at hrefusal
                simpa using hrefusal
            | lock _ => exact hrefusal
            | unguarded _ => exact hrefusal
            | unlock => exact hrefusal
  · rw [step?_other hs hstep hb] at hrefusal
    exact .inl hrefusal

/-- No actor has ever been refused for a request that it could not take
back. -/
theorem Reachable.no_shortage (h : Reachable w) (a id : Nat) :
    (w.actors a).refusal ≠ some (.noSuspendRequest id) := by
  induction h with
  | fresh isa => nofun
  | @move w w' m hreach hmove ih =>
      intro hrefusal
      cases m with
      | step b =>
          rcases step?_refuses hreach.sound hmove hrefusal with hbefore | ⟨task, w₁, hperform⟩
          · exact ih hbefore
          · exact hreach.sound.perform_refused hperform id rfl
      | start b c =>
          obtain ⟨-, -, rfl⟩ := move?_start hmove
          rw [setActor_actors] at hrefusal
          split at hrefusal
          · cases hrefusal
          · exact ih hrefusal
      | ask i c =>
          cases hmove
          rw [update_actors] at hrefusal
          exact ih hrefusal
      | arm implicitChecks =>
          cases hmove
          exact ih hrefusal

end Refusal

-- ============================================================ accounts

/-- Suspend requests are accounted exactly, in every order of moves. The
list counts the suspensions in progress; every listed thread holds one
request for each of them that is not its own, and its word shows whether
there is one; and no request that is to be taken back is ever missing. -/
theorem Reachable.requests_exact {w : World} (h : Reachable w) :
    w.suspending.encard = (w.suspendAllCount : ℕ∞)
      ∧ (∀ id ∈ w.listed, ∃ t, w.records id = some t
        ∧ (t.suspendCount : ℕ∞) = (w.suspendingOthers id).encard
        ∧ (t.word.bits &&& ThreadFlag.suspendRequest ≠ 0 ↔ t.suspendCount ≠ 0))
      ∧ ∀ a id, (w.actors a).refusal ≠ some (.noSuspendRequest id) := by
  have hs := h.sound
  refine ⟨hs.encard_suspending, fun id hmem => ?_, h.no_shortage⟩
  obtain ⟨t, hrec⟩ := Option.isSome_iff_exists.mp (hs.ledger.present hmem)
  refine ⟨t, hrec, ?_, ?_⟩
  · rw [hs.encard_suspendingOthers, hs.ledger.count hmem hrec]
  · rw [suspendRequest_bit]
    exact hs.ledger.flag hrec

/-- Two threads (actors 0 and 1) come, the first one suspends the second
and leaves with its guard, and a third one (actor 2) comes. -/
def leavingSuspender : List Move :=
  [.start 0 (.attach "leaver"), .step 0, .step 0, .step 0, .step 0,
    .start 1 (.attach "worker"), .step 1,
    .start 0 .suspendAll, .step 0, .step 0, .step 0,
    .start 0 .detach, .step 0, .step 0, .step 0, .step 0, .step 0, .step 0, .step 0,
    .start 2 (.attach "late"), .step 2]

/-- The guard of a suspender that has left still stands for one request on
each of the two others. -/
theorem requests_exact_leaving : ∃ w, Reachable w ∧ w.listed = [2, 3] ∧ w.suspendAllCount = 1
    ∧ (w.actors 0).guard = some ⟨some 1, [2]⟩ ∧ (w.actors 0).attached = false
    ∧ w.suspending.encard = 1
    ∧ (∃ t, w.records 2 = some t ∧ t.suspendCount = 1 ∧ (w.suspendingOthers 2).encard = 1)
    ∧ ∃ t, w.records 3 = some t ∧ t.suspendCount = 1 ∧ (w.suspendingOthers 3).encard = 1 := by
  have hreach : Reachable ((follow { isa := .x86_64 } leavingSuspender).get rfl) :=
    (Reachable.fresh .x86_64).follow (Option.some_get _).symm
  obtain ⟨htotal, hlisted, -⟩ := hreach.requests_exact
  obtain ⟨t, ht, hcount, -⟩ := hlisted 2 (by decide)
  obtain ⟨t', ht', hcount', -⟩ := hlisted 3 (by decide)
  cases ht
  cases ht'
  exact ⟨_, hreach, rfl, rfl, rfl, rfl, htotal, ⟨_, rfl, rfl, hcount.symm⟩, _, rfl, rfl, hcount'.symm⟩

end World

end Crossing
