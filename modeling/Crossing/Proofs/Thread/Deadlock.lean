import Crossing.Proofs.Thread.Presence

/-
Who waits for whom while the world is being stopped. There are three waits:
for the right to suspend, for a resume, and for everybody else to stop. The
second one never holds up the third, since a thread that waits for a resume
does not run. The first one does: an attached thread may ask for the right
to suspend while it runs managed code, and then it neither stops nor lets
the suspension in progress come to its end.

This is the only way to a deadlock (`Reachable.deadlocked_iff`), and there
is no way out of it, whatever everybody else does.
-/
namespace Crossing

namespace World

-- ============================================================== waits

/-- What keeps actor `a` from performing a task. -/
inductive Waits (w : World) (a : Nat) : Task → Prop where
  | lock : w.suspensionLock.isSome → Waits w a .lockSuspension
  | resume {t : ThreadRecord} : w.own? a = some t → t.word.suspend = true → Waits w a .awaitResume
  | stopped {targets : List Nat} :
      targets.all w.isStopped = false → Waits w a (.awaitStopped targets)

/-- The actor is in the middle of something and cannot go on. -/
def Blocked (w : World) (b : Nat) : Prop := (w.actors b).agenda ≠ [] ∧ w.step? b = none

/-- The actor wants the right to suspend. -/
def Queued (w : World) (b : Nat) : Prop := ∃ rest, (w.actors b).agenda = .lockSuspension :: rest

/-- The actor waits for a resume, and there is a request. -/
def Paused (w : World) (b : Nat) : Prop :=
  ∃ rest t, (w.actors b).agenda = .awaitResume :: rest ∧ w.own? b = some t ∧ t.word.suspend = true

/-- The actor wants the right to suspend while its thread runs. -/
def RunningCaller (w : World) (b : Nat) : Prop :=
  w.Queued b ∧ ∃ t, w.own? b = some t ∧ t.state = .runnable

/-- Nobody can go on, neither the actor that stops the world nor any
attached one. -/
def Deadlocked (w : World) (a : Nat) : Prop :=
  ∀ b, b = a ∨ (w.actors b).attached = true → w.Blocked b

section Waits

variable {w : World} {a b : Nat} {task : Task} {rest : List Task}

theorem performOwn_blocked {t : ThreadRecord} (hown : w.own? a = some t)
    (h : w.performOwn t task = .blocked) : w.Waits a task := by
  cases task with
  | awaitResume =>
      simp only [performOwn] at h
      split at h
      · next hflag => exact .resume hown hflag
      · cases h
  | leave =>
      simp only [performOwn] at h
      split at h
      · cases h
      · split at h <;> cases h
  | leaveSwap seen => simp only [performOwn] at h; split at h <;> cases h
  | enter =>
      simp only [performOwn] at h
      split at h
      · cases h
      · split at h
        · cases h
        · split at h <;> cases h
  | enterSwap seen => simp only [performOwn] at h; split at h <;> cases h
  | poll =>
      simp only [performOwn] at h
      split at h
      · cases h
      · split at h <;> cases h
  | runCheckpoints => simp only [performOwn] at h; split at h <;> cases h
  | depart => simp only [performOwn] at h; split at h <;> cases h
  | _ => cases h

/-- Nothing else makes an actor wait. -/
theorem perform_eq_blocked : w.perform a task = .blocked ↔ w.Waits a task := by
  constructor
  · intro h
    cases task with
    | lockSuspension =>
        simp only [perform] at h
        split at h
        · next hlock => exact .lock hlock
        · cases h
    | awaitStopped targets =>
        simp only [perform] at h
        split at h
        · cases h
        · next hstopped => exact .stopped (Bool.eq_false_iff.mpr hstopped)
    | releaseAll =>
        simp only [perform] at h
        split at h
        · cases h
        · split at h <;> cases h
    | checkPhase marking => simp only [perform] at h; split at h <;> cases h
    | requestCheckpoint _ _ => cases h
    | enlist _ => cases h
    | unlist => cases h
    | requestAll => cases h
    | unlockSuspension => cases h
    | flipAll _ => cases h
    | flipOne _ _ => cases h
    | flipList _ => cases h
    | flipCollector _ => cases h
    | bookCycle => cases h
    | _ =>
        simp only [perform] at h
        split at h
        · next t hown => exact performOwn_blocked hown h
        · cases h
  · intro h
    cases h with
    | lock hlock => simp only [perform, hlock, if_true]
    | resume hown hflag => simp only [perform, hown, performOwn, hflag, if_true]
    | stopped hstopped => simp only [perform, hstopped, Bool.false_eq_true, if_false]

theorem step?_eq_none (hagenda : (w.actors a).agenda = task :: rest) :
    w.step? a = none ↔ w.Waits a task := by
  rw [← perform_eq_blocked]
  simp only [step?, hagenda]
  cases w.perform a task with
  | blocked => simp
  | refused v w₁ => simp
  | next tasks w₁ => simp

theorem blocked_iff :
    w.Blocked b ↔ ∃ task rest, (w.actors b).agenda = task :: rest ∧ w.Waits b task := by
  unfold Blocked
  cases hagenda : (w.actors b).agenda with
  | nil => simp
  | cons task rest =>
      rw [step?_eq_none hagenda]
      simp

end Waits

-- ========================================================= who waits

section Suspension

variable {w w' : World} {a b : Nat} {targets : List Nat} {rest : List Task} {m : Move}

/-- Nobody waits for itself to stop. -/
theorem Reachable.current_notin (h : Reachable w)
    (hagenda : (w.actors a).agenda = .awaitStopped targets :: rest) {id : Nat}
    (hcurrent : (w.actors a).current = some id) : id ∉ targets := by
  induction h with
  | fresh isa => cases hagenda
  | @move w w' m hreach hmove ih =>
      have hsame : w'.actors a = w.actors a → id ∉ targets := by
        intro heq
        rw [heq] at hagenda hcurrent
        exact ih hagenda hcurrent
      cases m with
      | step b =>
          by_cases hb : a = b
          · subst hb
            obtain ⟨hcurrent', -, rfl⟩ := step?_asks hreach.sound hmove hagenda
            intro hmem
            exact (mem_others.mp hmem).2 (hcurrent'.symm.trans hcurrent)
          · exact hsame (step?_other hreach.sound hmove hb)
      | start b c =>
          obtain ⟨-, -, rfl⟩ := move?_start hmove
          by_cases hb : a = b
          · rw [setActor_actors, if_pos hb] at hagenda
            cases c with
            | _ => cases hagenda
          · exact hsame (if_neg hb)
      | ask i c =>
          cases hmove
          exact hsame (by rw [update_actors])
      | arm implicitChecks =>
          cases hmove
          exact hsame rfl

/-- Whoever waits for others to stop has the lock. -/
theorem Sound.lock_of_await (hs : w.Sound)
    (hagenda : (w.actors a).agenda = .awaitStopped targets :: rest) :
    w.suspensionLock = some a := by
  obtain ⟨p, htidy, hlock⟩ := hs.ordered a
  exact hlock.mpr (by rw [(htidy.fits hagenda rfl).of_await.1]; nofun)

/-- Everybody else who is blocked wants the lock or waits for a resume. -/
theorem Sound.blocked_other (hs : w.Sound)
    (hagenda : (w.actors a).agenda = .awaitStopped targets :: rest) (hb : b ≠ a)
    (hblocked : w.Blocked b) : w.Queued b ∨ w.Paused b := by
  obtain ⟨task, rest', hagenda', hwaits⟩ := blocked_iff.mp hblocked
  cases hwaits with
  | lock _ => exact .inl ⟨rest', hagenda'⟩
  | resume hown hflag => exact .inr ⟨rest', _, hagenda', hown, hflag⟩
  | stopped _ =>
      have hlock := hs.lock_of_await hagenda'
      rw [hs.lock_of_await hagenda] at hlock
      exact absurd (Option.some.inj hlock).symm hb

/-- A thread that waits for a resume does not run. -/
theorem Manned.paused_stopped (h : w.Manned) (hpaused : w.Paused b) {t : ThreadRecord}
    (hown : w.own? b = some t) : t.state ≠ .runnable := by
  obtain ⟨rest, -, hagenda, -⟩ := hpaused
  have hparks := h.parks b
  rw [hagenda, hown] at hparks
  have hstopped := (Bool.and_eq_true_iff.mp hparks).1
  simpa [ThreadRecord.isStopped] using hstopped

/-- A running thread that wants the lock is one of those that are waited
for. -/
theorem Reachable.caller_target (h : Reachable w)
    (hagenda : (w.actors a).agenda = .awaitStopped targets :: rest) (hcaller : w.RunningCaller b) :
    targets.all w.isStopped = false := by
  obtain ⟨⟨rest', hqueued⟩, t, hown, hrun⟩ := hcaller
  obtain ⟨hrecord, hrec⟩ := own?_spec h.sound.ledger.toNumbered hown
  have howner := h.manned.owner hrecord hrec
  have hb : b ≠ a := by
    rintro rfl
    rw [hagenda] at hqueued
    cases hqueued
  have hlisted : t.id ∈ w.listed := by
    obtain ⟨-, hattached⟩ := h.manned.running hrec hrun
    rw [howner] at hattached
    obtain ⟨id, hmem, hrecord'⟩ := h.manned.listed hattached
    rw [hrecord] at hrecord'
    cases hrecord'
    exact hmem
  have hother : (w.actors a).current ≠ some t.id := by
    intro hcurrent
    unfold Actor.current at hcurrent
    split at hcurrent
    · exact hb (howner.symm.trans (h.manned.owner hcurrent hrec))
    · cases hcurrent
  have htarget : t.id ∈ targets := by
    by_cases hmem : t.id ∈ targets
    · exact hmem
    · exact absurd hrun ((h.late hagenda t.id hlisted hother hmem).parked t hrec)
  refine Bool.eq_false_iff.mpr fun hall => ?_
  exact isStopped_iff.mp (List.all_eq_true.mp hall t.id htarget) t hrec hrun

/-- Whoever is waited for and runs is there, and is somebody else. -/
theorem Reachable.running_target (h : Reachable w)
    (hagenda : (w.actors a).agenda = .awaitStopped targets :: rest)
    (hstopped : targets.all w.isStopped = false) :
    ∃ b t, b ≠ a ∧ (w.actors b).attached = true ∧ w.own? b = some t ∧ t.state = .runnable := by
  obtain ⟨id, hmem, hruns⟩ : ∃ id ∈ targets, w.isStopped id = false := by
    simpa using hstopped
  obtain ⟨t, hrec, hrun⟩ : ∃ t, w.records id = some t ∧ t.state = .runnable := by
    cases hrec : w.records id with
    | none => simp [isStopped, hrec] at hruns
    | some t => exact ⟨t, rfl, by simpa [isStopped, hrec, ThreadRecord.isStopped] using hruns⟩
  obtain ⟨hrecord, hattached⟩ := h.manned.running hrec hrun
  refine ⟨t.owner, t, ?_, hattached, by unfold own?; rw [hrecord]; exact hrec, hrun⟩
  intro howner
  rw [howner] at hrecord hattached
  have hcurrent : (w.actors a).current = some id := by simp [Actor.current, hattached, hrecord]
  exact h.current_notin hagenda hcurrent hmem

end Suspension

-- ========================================================== deadlock

section Deadlock

variable {w w' : World} {a b : Nat} {targets : List Nat} {rest : List Task} {m : Move}

/-- An actor waits for others to stop while a running thread wants the lock
that it has. -/
structure Stuck (w : World) (a b : Nat) : Prop where
  suspending : ∃ targets rest, (w.actors a).agenda = .awaitStopped targets :: rest
  caller : w.RunningCaller b

/-- Neither of the two can take a step. -/
theorem Stuck.blocked (h : w.Stuck a b) (hreach : Reachable w) :
    w.step? a = none ∧ w.step? b = none := by
  obtain ⟨targets, rest, hagenda⟩ := h.suspending
  obtain ⟨rest', hqueued⟩ := h.caller.1
  constructor
  · exact (step?_eq_none hagenda).mpr (.stopped (hreach.caller_target hagenda h.caller))
  · refine (step?_eq_none hqueued).mpr (.lock ?_)
    rw [hreach.sound.lock_of_await hagenda]
    rfl

theorem Stuck.keep (h : w.Stuck a b) (ha : w'.actors a = w.actors a) (hb : w'.actors b = w.actors b)
    (hstate : ∀ t, w.own? b = some t → ∃ t', w'.own? b = some t' ∧ t'.state = t.state) :
    w'.Stuck a b := by
  obtain ⟨⟨rest, hqueued⟩, t, hown, hrun⟩ := h.caller
  obtain ⟨t', hown', hkept⟩ := hstate t hown
  refine ⟨by rw [ha]; exact h.suspending, ⟨rest, by rw [hb]; exact hqueued⟩, t', hown', ?_⟩
  exact hkept.trans hrun

/-- Nobody else's move gets them out of it. -/
theorem Stuck.move (h : w.Stuck a b) (hreach : Reachable w) (hmove : w.move? m = some w') :
    w'.Stuck a b := by
  have hs := hreach.sound
  obtain ⟨hstuck, hstuck'⟩ := h.blocked hreach
  cases m with
  | step c =>
      have ha : a ≠ c := by
        rintro rfl
        rw [show w.step? a = some w' from hmove] at hstuck
        cases hstuck
      have hb : b ≠ c := by
        rintro rfl
        rw [show w.step? b = some w' from hmove] at hstuck'
        cases hstuck'
      obtain ⟨task, rest, -, hfates, -⟩ := step?_cases hs hmove
      have hactor := step?_other hs hmove hb
      have hkept := hreach.manned.undisturbed hs hfates hb (by rw [hactor])
      refine h.keep (step?_other hs hmove ha) hactor fun t hown => ?_
      rw [hown] at hkept
      generalize w'.own? b = own' at hkept
      cases hkept with
      | some hkept => exact ⟨_, rfl, hkept.state⟩
  | start c command =>
      obtain ⟨hidle, -, rfl⟩ := move?_start hmove
      obtain ⟨targets, rest, hagenda⟩ := h.suspending
      obtain ⟨rest', hqueued⟩ := h.caller.1
      have ha : a ≠ c := by rintro rfl; rw [hagenda] at hidle; cases hidle
      have hb : b ≠ c := by rintro rfl; rw [hqueued] at hidle; cases hidle
      refine h.keep (if_neg ha) (if_neg hb) fun t hown => ⟨t, ?_, rfl⟩
      unfold own? at hown ⊢
      rw [setActor_actors, if_neg hb]
      exact hown
  | ask i c =>
      cases hmove
      refine h.keep (by rw [update_actors]) (by rw [update_actors]) fun t hown => ?_
      unfold own? at hown ⊢
      rw [update_actors]
      obtain ⟨id, hid, hrec⟩ := Option.bind_eq_some_iff.mp hown
      rw [hid, Option.bind_some, update_records (f := (·.requestCheckpoint c)) hs.ledger.toNumbered
        (fun _ => rfl), hrec]
      split
      · exact ⟨_, rfl, rfl⟩
      · exact ⟨_, rfl, rfl⟩
  | arm implicitChecks =>
      cases hmove
      exact h.keep rfl rfl fun t hown => ⟨t, hown, rfl⟩

theorem Stuck.follow {ms : List Move} (h : w.Stuck a b) (hreach : Reachable w)
    (hrun : w.follow ms = some w') : w'.Stuck a b := by
  induction ms generalizing w with
  | nil =>
      cases hrun
      exact h
  | cons m ms ih =>
      obtain ⟨w₁, hmove, hrest⟩ := Option.bind_eq_some_iff.mp hrun
      exact ih (h.move hreach hmove) (.move m hreach hmove) hrest

/-- While an actor waits for everybody else to stop, somebody can go on,
unless a running thread wants the right to suspend and all others wait as
well, for that right or for a resume. And once a running thread wants it,
the suspension in progress never comes to its end. -/
theorem Reachable.deadlocked_iff (h : Reachable w)
    (hagenda : (w.actors a).agenda = .awaitStopped targets :: rest) :
    (w.Deadlocked a ↔ (∃ b, w.RunningCaller b)
        ∧ ∀ b ≠ a, (w.actors b).attached = true → w.Queued b ∨ w.Paused b)
      ∧ ((∃ b, w.RunningCaller b) → ∀ ms w', w.follow ms = some w' → w'.step? a = none) := by
  refine ⟨⟨fun hdead => ⟨?_, fun b hb hattached => ?_⟩, ?_⟩, ?_⟩
  · obtain ⟨task, rest', hagenda', hwaits⟩ := blocked_iff.mp (hdead a (.inl rfl))
    rw [hagenda] at hagenda'
    cases hagenda'
    cases hwaits with
    | stopped hstopped =>
        obtain ⟨b, t, hb, hattached, hown, hrun⟩ := h.running_target hagenda hstopped
        rcases h.sound.blocked_other hagenda hb (hdead b (.inr hattached)) with hqueued | hpaused
        · exact ⟨b, hqueued, t, hown, hrun⟩
        · exact absurd hrun (h.manned.paused_stopped hpaused hown)
  · exact h.sound.blocked_other hagenda hb (hdead b (.inr hattached))
  · rintro ⟨⟨c, hcaller⟩, hothers⟩ b hpart
    by_cases hb : b = a
    · subst hb
      exact blocked_iff.mpr ⟨_, rest, hagenda, .stopped (h.caller_target hagenda hcaller)⟩
    · rcases hothers b hb (hpart.resolve_left hb)
        with ⟨rest', hqueued⟩ | ⟨rest', t, hpaused, hown, hflag⟩
      · refine blocked_iff.mpr ⟨_, rest', hqueued, .lock ?_⟩
        rw [h.sound.lock_of_await hagenda]
        rfl
      · exact blocked_iff.mpr ⟨_, rest', hpaused, .resume hown hflag⟩
  · rintro ⟨b, hcaller⟩ ms w' hrun
    have hstuck : w.Stuck a b := ⟨⟨targets, rest, hagenda⟩, hcaller⟩
    exact ((hstuck.follow h hrun).blocked (h.follow hrun)).1

/-- Two threads (actors 0 and 1) come and run; the first one sets out to
suspend all others and waits for the second one to stop. -/
def firstCaller : List Move :=
  [.start 0 (.attach "first"), .step 0, .step 0, .step 0, .step 0,
    .start 1 (.attach "second"), .step 1, .step 1, .step 1, .step 1,
    .start 0 .suspendAll, .step 0, .step 0]

/-- While the second thread is idle it is free to pass a suspend point; when
it sets out to suspend all others instead, the first one waits for ever. -/
theorem deadlocked_second_caller :
    (∃ w, follow { isa := .x86_64 } firstCaller = some w ∧ ¬ w.Deadlocked 0)
      ∧ ∃ w, follow { isa := .x86_64 } (firstCaller ++ [.start 1 .suspendAll]) = some w
        ∧ ∀ ms w', w.follow ms = some w' → w'.step? 0 = none := by
  constructor
  · have hrun : follow { isa := .x86_64 } firstCaller
        = some ((follow { isa := .x86_64 } firstCaller).get rfl) := (Option.some_get _).symm
    refine ⟨_, hrun, fun hdead => ?_⟩
    have hreach := (Reachable.fresh .x86_64).follow hrun
    obtain ⟨-, hothers⟩ := (hreach.deadlocked_iff (a := 0) rfl).1.mp hdead
    rcases hothers 1 nofun rfl with ⟨rest, hqueued⟩ | ⟨rest, t, hpaused, -⟩
    · cases hqueued
    · cases hpaused
  · have hrun : follow { isa := .x86_64 } (firstCaller ++ [.start 1 .suspendAll])
        = some ((follow { isa := .x86_64 } (firstCaller ++ [.start 1 .suspendAll])).get rfl) :=
      (Option.some_get _).symm
    have hreach := (Reachable.fresh .x86_64).follow hrun
    exact ⟨_, hrun, (hreach.deadlocked_iff (a := 0) rfl).2 ⟨1, ⟨_, rfl⟩, _, rfl, rfl⟩⟩

/-- It is not so that somebody can always go on while an actor waits for
all others to stop. -/
theorem not_always_free : ¬ ∀ w, Reachable w → ∀ a targets rest,
    (w.actors a).agenda = .awaitStopped targets :: rest →
      ∃ b, (b = a ∨ (w.actors b).attached = true) ∧ ¬ w.Blocked b := by
  intro hall
  have hreach : Reachable ((follow { isa := .x86_64 }
      (firstCaller ++ [.start 1 .suspendAll])).get rfl) :=
    (Reachable.fresh .x86_64).follow (Option.some_get _).symm
  obtain ⟨b, hpart, hfree⟩ := hall _ hreach 0 [2] [] rfl
  match b with
  | 0 => exact hfree ⟨nofun, rfl⟩
  | 1 => exact hfree ⟨nofun, rfl⟩
  | b + 2 =>
      rcases hpart with hzero | hattached
      · cases hzero
      · cases hattached

end Deadlock

end World

end Crossing
