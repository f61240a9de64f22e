import Crossing.Proofs.Thread.Presence

/-
Who holds the mutator lock. A thread sets its state first and its lock
right after, so the two differ for one step of its actor; `Balanced` says
how the tasks that settle the difference stand in an agenda, and
`LockPhase.Holds` what the record says meanwhile. Nobody but the actor
itself touches its state or its lock (`step?_hand`).

An actor that goes ends with its thread terminated and is not heard of any
more; the lock is a matter of the threads that are listed, and each of
these has its actor (`Gripped.manned`).
-/
namespace Crossing

-- ============================================================= phases

/-- How the lock of a thread stands to its state: they agree, the lock is
still to be taken or to be dropped, or the thread is about to go. -/
inductive LockPhase where
  | even
  | taking
  | dropping
  | going

namespace LockPhase

/-- What the record of a thread says in a phase. -/
def Holds : LockPhase → ThreadRecord → Prop
  | even, t => t.heldLock = true ↔ t.state = .runnable
  | taking, t => t.state = .runnable
  | dropping, t => t.state ≠ .runnable
  | going, _ => True

/-- The phase that setting a state leads to. -/
def after : ThreadState → LockPhase
  | .runnable => taking
  | .native | .suspended => dropping
  | .terminated => going

theorem after_holds (t : ThreadRecord) (s : ThreadState) : (after s).Holds (t.setState s) := by
  cases s with
  | runnable => rfl
  | terminated => trivial
  | native => nofun
  | suspended => nofun

end LockPhase

/-- A change of a record that leaves state and lock alone. -/
structure ThreadRecord.SameGrip (t t' : ThreadRecord) : Prop where
  state : t'.state = t.state
  lock : t'.heldLock = t.heldLock

theorem LockPhase.Holds.same {phase : LockPhase} {t t' : ThreadRecord} (h : phase.Holds t)
    (hsame : t.SameGrip t') : phase.Holds t' := by
  cases phase with
  | going => trivial
  | _ =>
      simp only [Holds, hsame.state, hsame.lock]
      exact h

-- ============================================================ agendas

/-- Tasks that find state and lock in agreement; if they change the state,
what follows them first is the lock. -/
def Task.isEven : Task → Bool
  | setState _ | takeLock | dropLock | unlist => false
  | _ => true

/-- The agendas of an actor in a given phase. -/
inductive Balanced : LockPhase → List Task → Prop where
  | done : Balanced .even []
  | even {task : Task} {rest : List Task} : task.isEven → Balanced .even rest →
      Balanced .even (task :: rest)
  | set {s : ThreadState} {rest : List Task} : Balanced (.after s) rest →
      Balanced .even (.setState s :: rest)
  | take {rest : List Task} : Balanced .even rest → Balanced .taking (.takeLock :: rest)
  | drop {rest : List Task} : Balanced .even rest → Balanced .dropping (.dropLock :: rest)
  | go {rest : List Task} : Balanced .going (.unlist :: rest)

namespace Balanced

variable {phase : LockPhase} {task : Task} {tasks rest : List Task}

theorem append (htasks : ∀ task ∈ tasks, task.isEven) (h : Balanced .even rest) :
    Balanced .even (tasks ++ rest) := by
  induction tasks with
  | nil => exact h
  | cons task tasks ih =>
      have hrest := ih fun next hmem => htasks next (List.mem_cons_of_mem _ hmem)
      exact .even (htasks task List.mem_cons_self) hrest

theorem of_even (h : Balanced phase (task :: rest)) (heven : task.isEven = true) :
    phase = .even ∧ Balanced .even rest := by
  cases h with
  | even _ hrest => exact ⟨rfl, hrest⟩
  | _ => cases heven

theorem serveSuspension (h : Balanced .even rest) :
    Balanced .even (World.serveSuspension ++ .poll :: rest) :=
  .set (.drop (.even rfl (.set (.take (.even rfl h)))))

theorem command (c : Command) : Balanced .even c.agenda := by
  rw [← List.append_nil c.agenda]
  refine append ?_ .done
  cases c with
  | flip marking => cases marking <;> simp [Command.agenda, Task.isEven]
  | _ => simp [Command.agenda, Task.isEven]

end Balanced

namespace World

-- ============================================================= a hand

/-- What a task on the actor's own record `t` does: other records stay, and
whatever phase the actor was in, its record and its agenda are in the phase
that comes next. -/
structure Regrips (w : World) (t : ThreadRecord) (task : Task) (tasks : List Task)
    (w' : World) : Prop where
  others : ∀ id, id ≠ t.id → w'.records id = w.records id
  own : ∀ {phase rest}, Balanced phase (task :: rest) → phase.Holds t →
    ∃ t' phase', w'.records t.id = some t' ∧ Balanced phase' (tasks ++ rest) ∧ phase'.Holds t'

section Own

variable {w w' : World} {a id : Nat} {t t' : ThreadRecord} {task : Task} {tasks : List Task}

theorem Regrips.set (hid : t'.id = t.id)
    (hown : ∀ {phase rest}, Balanced phase (task :: rest) → phase.Holds t →
      ∃ phase', Balanced phase' (tasks ++ rest) ∧ phase'.Holds t') :
    w.Regrips t task tasks (w.setRecord t') where
  others id hne := by rw [setRecord_records, hid, if_neg hne]
  own hbalanced hholds := by
    obtain ⟨phase', hbalanced', hholds'⟩ := hown hbalanced hholds
    exact ⟨t', phase', by rw [setRecord_records, hid, if_pos rfl], hbalanced', hholds'⟩

theorem performOwn_regrips (hrec : w.records t.id = some t)
    (h : w.performOwn t task = .next tasks w') (hstays : task ≠ .unlist) :
    w.Regrips t task tasks w' := by
  have hsame : ∀ {tasks}, task.isEven = true →
      (∀ {rest}, Balanced .even rest → Balanced .even (tasks ++ rest)) →
      w.Regrips t task tasks w := by
    refine fun heven hahead => ⟨fun _ _ => rfl, fun hbalanced hholds => ?_⟩
    obtain ⟨rfl, hrest⟩ := hbalanced.of_even heven
    exact ⟨t, .even, hrec, hahead hrest, hholds⟩
  have hset : ∀ {tasks} {t' : ThreadRecord}, t'.id = t.id → t.SameGrip t' → task.isEven = true →
      (∀ next ∈ tasks, next.isEven) → w.Regrips t task tasks (w.setRecord t') := by
    refine fun hid hgrip heven htasks => .set hid fun hbalanced hholds => ?_
    obtain ⟨rfl, hrest⟩ := hbalanced.of_even heven
    exact ⟨.even, hrest.append htasks, hholds.same hgrip⟩
  cases task with
  | leave =>
      simp only [performOwn] at h
      split at h
      · cases h
      · split at h
        · cases h; exact hsame rfl (.append (by simp [Task.isEven]))
        · cases h; exact hsame rfl (.append (by simp [Task.isEven]))
  | leaveSwap seen =>
      simp only [performOwn, ThreadRecord.swapState?] at h
      split at h
      · next hswap =>
          split at hswap
          · cases hswap
            cases h
            refine .set rfl fun hbalanced _ => ?_
            exact ⟨.dropping, .drop (hbalanced.of_even rfl).2, LockPhase.after_holds t .native⟩
          · cases hswap
      · cases h; exact hsame rfl (.append (by simp [Task.isEven]))
  | dropLock =>
      cases h
      refine .set rfl fun hbalanced hholds => ?_
      cases hbalanced with
      | even heven _ => cases heven
      | drop hrest => exact ⟨.even, hrest, iff_of_false Bool.false_ne_true hholds⟩
  | enter =>
      simp only [performOwn] at h
      split at h
      · cases h
      · split at h
        · cases h; exact hsame rfl (.append (by simp [Task.isEven]))
        · split at h
          · cases h; exact hsame rfl (.append (by simp [Task.isEven, serveCheckpoints]))
          · cases h; exact hsame rfl (.append (by simp [Task.isEven]))
  | enterSwap seen =>
      simp only [performOwn, ThreadRecord.swapState?] at h
      split at h
      · next hswap =>
          split at hswap
          · cases hswap
            cases h
            refine .set rfl fun hbalanced _ => ?_
            exact ⟨.taking, .take (hbalanced.of_even rfl).2, LockPhase.after_holds t .runnable⟩
          · cases hswap
      · cases h; exact hsame rfl (.append (by simp [Task.isEven]))
  | takeLock =>
      cases h
      refine .set rfl fun hbalanced hholds => ?_
      cases hbalanced with
      | even heven _ => cases heven
      | take hrest => exact ⟨.even, hrest, iff_of_true rfl hholds⟩
  | poll =>
      simp only [performOwn] at h
      split at h
      · cases h; exact hsame rfl (.append (by simp [Task.isEven, serveCheckpoints]))
      · split at h
        · cases h; exact hsame rfl .serveSuspension
        · cases h; exact hsame rfl id
  | runCheckpoints =>
      simp only [performOwn] at h
      split at h
      · cases h; exact hsame rfl id
      · cases h; exact hset rfl ⟨rfl, rfl⟩ rfl (by simp [Task.isEven, or_imp, forall_and])
  | setState s =>
      cases h
      refine .set rfl fun hbalanced _ => ?_
      cases hbalanced with
      | even heven _ => cases heven
      | set hrest => exact ⟨.after s, hrest, LockPhase.after_holds t s⟩
  | awaitResume =>
      simp only [performOwn] at h
      split at h
      · cases h
      · cases h; exact hsame rfl id
  | depart =>
      simp only [performOwn] at h
      split at h
      · cases h; exact hsame rfl fun _ => .even rfl (.even rfl (.set .go))
      · cases h; exact hsame rfl fun _ => .set .go
  | publishFrame sp tag => cases h; exact hset rfl ⟨rfl, rfl⟩ rfl (by simp)
  | takeCheckpoints => cases h; exact hset rfl ⟨rfl, rfl⟩ rfl (by simp)
  | unlist => exact absurd rfl hstays
  | _ => cases h; exact hsame rfl id

end Own

-- =========================================================== any hand

section Any

variable {w w' : World} {a b : Nat} {t : ThreadRecord} {task : Task} {tasks rest : List Task}

theorem rel_sameGrip_refl (o : Option ThreadRecord) : Option.Rel ThreadRecord.SameGrip o o := by
  cases o with
  | none => exact .none
  | some t => exact .some ⟨rfl, rfl⟩

theorem grip_updateAll {ids : List Nat} {f : ThreadRecord → ThreadRecord} (hnum : w.Numbered)
    (hnodup : ids.Nodup) (hid : ∀ t, (f t).id = t.id)
    (hsame : ∀ t : ThreadRecord, t.SameGrip (f t)) (id : Nat) :
    Option.Rel ThreadRecord.SameGrip (w.records id) ((w.updateAll ids f).records id) := by
  rw [updateAll_records hnum hid hnodup]
  split
  · cases w.records id with
    | none => exact .none
    | some t => exact .some (hsame t)
  · exact rel_sameGrip_refl _

theorem grip_update {f : ThreadRecord → ThreadRecord} (hnum : w.Numbered) (i : Nat)
    (hid : ∀ t, (f t).id = t.id) (hsame : ∀ t : ThreadRecord, t.SameGrip (f t)) (id : Nat) :
    Option.Rel ThreadRecord.SameGrip (w.records id) ((w.update i f).records id) := by
  show Option.Rel ThreadRecord.SameGrip (w.records id) ((w.updateAll [i] f).records id)
  exact grip_updateAll hnum (by simp) hid hsame id

theorem ask_sameGrip (implicitChecks : Bool) (t : ThreadRecord) :
    t.SameGrip (ask implicitChecks t) := by
  cases implicitChecks with
  | true => exact ⟨rfl, rfl⟩
  | false => exact ⟨rfl, rfl⟩

/-- A task that is not about the actor's own record, or whose actor has
none: no thread's state or lock changes. -/
structure HandsOff (w : World) (a : Nat) (task : Task) (tasks : List Task) (w' : World) :
    Prop where
  records : ∀ id, Option.Rel ThreadRecord.SameGrip (w.records id) (w'.records id)
  even : ∀ next ∈ tasks, next.isEven
  task : task.isEven = true ∨ task = .unlist ∨ w.own? a = none

/-- Every task is about the actor's own record, or about nobody's state and
lock; a thread that comes is apart. -/
theorem perform_hand (hs : w.Sound) (hcomes : ∀ name, task ≠ .enlist name)
    (h : w.perform a task = .next tasks w') :
    (∃ t, w.own? a = some t ∧ w.Regrips t task tasks w') ∨ w.HandsOff a task tasks w' := by
  have hnum : w.Numbered := hs.ledger.toNumbered
  have hothers : ∀ suspender, (w.others suspender).Nodup := fun suspender =>
    hs.ledger.distinct.sublist List.filter_sublist
  have hoff : ∀ {w' : World}, w'.records = w.records → (∀ next ∈ tasks, next.isEven) →
      task.isEven = true ∨ task = .unlist ∨ w.own? a = none → w.HandsOff a task tasks w' := by
    refine fun hrecords htasks htask => ⟨fun id => ?_, htasks, htask⟩
    rw [hrecords]
    exact rel_sameGrip_refl _
  cases task with
  | requestCheckpoint id c =>
      cases h
      exact .inr ⟨grip_update hnum id (fun _ => rfl) fun _ => ⟨rfl, rfl⟩, (by simp), .inl rfl⟩
  | enlist name => exact absurd rfl (hcomes name)
  | unlist => cases h; exact .inr (hoff rfl (by simp) (.inr (.inl rfl)))
  | lockSuspension =>
      simp only [perform] at h
      split at h
      · cases h
      · cases h; exact .inr (hoff rfl (by simp) (.inl rfl))
  | requestAll =>
      cases h
      refine .inr ⟨?_, by simp [Task.isEven], .inl rfl⟩
      rw [requestAll_eq]
      exact grip_updateAll (w := { w with suspendAllCount := w.suspendAllCount + 1 }) hnum
        (hothers (w.actors a).current) (ask_id w.implicitChecks) (ask_sameGrip w.implicitChecks)
  | awaitStopped targets =>
      simp only [perform] at h
      split at h
      · cases h; exact .inr (hoff rfl (by simp) (.inl rfl))
      · cases h
  | releaseAll =>
      simp only [perform] at h
      split at h
      · cases h; exact .inr (hoff rfl (by simp) (.inl rfl))
      · next g hguard =>
          rw [(hs.release_ok hguard).1] at h
          cases h
          refine .inr ⟨?_, (by simp), .inl rfl⟩
          exact grip_updateAll
            (w := { w.setActor a { w.actors a with guard := none } with
              suspendAllCount := w.suspendAllCount - 1 })
            hnum (hothers g.suspender) (f := letGo) (fun _ => rfl) fun _ => ⟨rfl, rfl⟩
  | unlockSuspension => cases h; exact .inr (hoff rfl (by simp) (.inl rfl))
  | checkPhase marking =>
      simp only [perform] at h
      split at h
      · cases h; exact .inr (hoff rfl (by simp) (.inl rfl))
      · cases h
  | flipAll marking => cases h; exact .inr (hoff rfl (by simp [Task.isEven]) (.inl rfl))
  | flipOne id marking =>
      cases h
      exact .inr ⟨grip_update hnum id (fun _ => rfl) fun _ => ⟨rfl, rfl⟩, (by simp), .inl rfl⟩
  | flipList marking => cases h; exact .inr (hoff rfl (by simp) (.inl rfl))
  | flipCollector marking => cases h; exact .inr (hoff rfl (by simp) (.inl rfl))
  | bookCycle => cases h; exact .inr (hoff rfl (by simp) (.inl rfl))
  | _ =>
      simp only [perform] at h
      split at h
      · next t hown =>
          exact .inl ⟨t, hown, performOwn_regrips (own?_spec hnum hown).2 h (by simp)⟩
      · next hown => cases h; exact .inr (hoff rfl (by simp) (.inr (.inr hown)))

/-- A task that is refused changes no record. -/
theorem perform_refused {v : Violation} (hs : w.Sound) (h : w.perform a task = .refused v w') :
    w'.records = w.records := by
  have hdeed := perform_deed hs.ledger.toNumbered a task
  rw [h] at hdeed
  cases hdeed with
  | refused _ => rfl
  | unreleased _ _ => rfl

/-- It finds state and lock in agreement. -/
theorem refused_isEven {v : Violation} (h : w.perform a task = .refused v w') :
    task.isEven = true := by
  cases task with
  | setState s => simp only [perform] at h; split at h <;> cases h
  | takeLock => simp only [perform] at h; split at h <;> cases h
  | dropLock => simp only [perform] at h; split at h <;> cases h
  | unlist => cases h
  | _ => rfl

/-- The record of a thread that comes: it is in native code without the
lock, and has the runtime's own entrypoints. -/
theorem enlist_newcomer (w : World) (a : Nat) (name : String) : ∃ t : ThreadRecord,
    (∀ id, (w.enlist a name).records id = if id = w.created + 1 then some t else w.records id)
      ∧ LockPhase.even.Holds t ∧ t.table.fixed = (EntrypointTable.ofIsa w.isa).fixed := by
  let fresh := ThreadRecord.fresh (w.created + 1) name w.isa a
  let marked := if w.marking then fresh.flip w.isa true else fresh
  have hmarked : marked.id = w.created + 1 ∧ LockPhase.even.Holds marked
      ∧ marked.table.fixed = (EntrypointTable.ofIsa w.isa).fixed := by
    simp only [marked]
    split
    · exact ⟨rfl, iff_of_false nofun nofun, rfl⟩
    · exact ⟨rfl, iff_of_false nofun nofun, rfl⟩
  have hrequest : (marked.requestSuspend w.suspendAllCount).id = marked.id
      ∧ marked.SameGrip (marked.requestSuspend w.suspendAllCount)
      ∧ (marked.requestSuspend w.suspendAllCount).table = marked.table := by
    unfold ThreadRecord.requestSuspend
    split
    · exact ⟨rfl, ⟨rfl, rfl⟩, rfl⟩
    · exact ⟨rfl, ⟨rfl, rfl⟩, rfl⟩
  obtain ⟨hid, hgrip, htable⟩ := hrequest
  refine ⟨marked.requestSuspend w.suspendAllCount, fun id => ?_, hmarked.2.1.same hgrip, ?_⟩
  · rw [← hmarked.1, ← hid]
    rfl
  · rw [htable]
    exact hmarked.2.2

/-- What a step that brings nobody does to states and locks. -/
inductive Hand (w : World) (a : Nat) (task : Task) (rest : List Task) (w' : World) : Prop where
  | refused : task.isEven = true → w'.records = w.records → (w'.actors a).agenda = [] →
      Hand w a task rest w'
  | own {t : ThreadRecord} {tasks : List Task} : w.own? a = some t → w.Regrips t task tasks w' →
      (w'.actors a).agenda = tasks ++ rest → Hand w a task rest w'
  | off {tasks : List Task} : w.HandsOff a task tasks w' → (w'.actors a).agenda = tasks ++ rest →
      Hand w a task rest w'

theorem step?_hand (hs : w.Sound) (hstep : w.step? a = some w')
    (hagenda : (w.actors a).agenda = task :: rest) (hcomes : ∀ name, task ≠ .enlist name) :
    w.Hand a task rest w' := by
  simp only [step?, hagenda] at hstep
  split at hstep
  · cases hstep
  · next v w₁ hperform =>
      cases hstep
      have hrecords := perform_refused hs hperform
      refine .refused (refused_isEven hperform) hrecords ?_
      rw [setActor_actors, if_pos rfl]
  · next tasks w₁ hperform =>
      cases hstep
      have hnext : ((w₁.setActor a { w₁.actors a with agenda := tasks ++ rest }).actors a).agenda
          = tasks ++ rest := by rw [setActor_actors, if_pos rfl]
      rcases perform_hand hs hcomes hperform with ⟨t, hown, hregrips⟩ | hoff
      · exact .own hown ⟨hregrips.others, hregrips.own⟩ hnext
      · exact .off ⟨hoff.records, hoff.even, hoff.task⟩ hnext

/-- What a step that brings a thread does. -/
theorem step?_newcomer {name : String} (hstep : w.step? a = some w')
    (hagenda : (w.actors a).agenda = .enlist name :: rest) : ∃ t : ThreadRecord,
    (∀ id, w'.records id = if id = w.created + 1 then some t else w.records id)
      ∧ LockPhase.even.Holds t ∧ (w'.actors a).agenda = .enter :: rest := by
  obtain ⟨t, hrecords, heven, -⟩ := enlist_newcomer w a name
  simp only [step?, hagenda, perform] at hstep
  cases hstep
  refine ⟨t, hrecords, heven, ?_⟩
  rw [setActor_actors, if_pos rfl]
  rfl

/-- An actor that keeps its record keeps what becomes of the record. -/
theorem grip_own? (hrecord : (w'.actors b).record = (w.actors b).record)
    (hgrip : ∀ id, (w.actors b).record = some id →
      Option.Rel ThreadRecord.SameGrip (w.records id) (w'.records id)) :
    Option.Rel ThreadRecord.SameGrip (w.own? b) (w'.own? b) := by
  unfold own?
  rw [hrecord]
  cases hid : (w.actors b).record with
  | none => exact .none
  | some id => exact hgrip id hid

/-- A step leaves the state and the lock of all other actors' threads
alone. -/
theorem Manned.ungripped (hm : w.Manned) (hs : w.Sound) (hstep : w.step? a = some w')
    (hagenda : (w.actors a).agenda = task :: rest) (hb : b ≠ a) :
    Option.Rel ThreadRecord.SameGrip (w.own? b) (w'.own? b) := by
  refine grip_own? (by rw [step?_other hs hstep hb]) fun id hid => ?_
  obtain ⟨t, hrec⟩ := Option.isSome_iff_exists.mp (hs.ledger.owned hid)
  by_cases hcomes : ∃ name, task = .enlist name
  · obtain ⟨name, rfl⟩ := hcomes
    obtain ⟨new, hrecords, -⟩ := step?_newcomer hstep hagenda
    have hle := (hs.ledger.numbered hrec).2
    rw [hrecords, if_neg (by omega)]
    exact rel_sameGrip_refl _
  · cases step?_hand hs hstep hagenda fun name h => hcomes ⟨name, h⟩ with
    | refused _ hrecords _ =>
        rw [hrecords]
        exact rel_sameGrip_refl _
    | @own t₀ _ hown₀ hregrips _ =>
        have hne : id ≠ t₀.id := by
          rintro rfl
          rw [(own?_spec hs.ledger.toNumbered hown₀).2] at hrec
          cases hrec
          exact hm.own_ne hs hown₀ hb (Option.bind_eq_some_iff.mpr
            ⟨_, hid, (own?_spec hs.ledger.toNumbered hown₀).2⟩)
        rw [hregrips.others id hne]
        exact rel_sameGrip_refl _
    | off hoff _ => exact hoff.records id

end Any

-- ============================================================= always

/-- Every listed thread has its actor, and every actor that is there has
its thread's state and lock in hand. -/
structure Gripped (w : World) : Prop where
  manned : ∀ id ∈ w.listed, ∃ b, (w.actors b).attached = true ∧ (w.actors b).record = some id
  held : ∀ {b t}, (w.actors b).attached = true → w.own? b = some t →
    ∃ phase, Balanced phase (w.actors b).agenda ∧ phase.Holds t

section Gripped

variable {w w' : World} {a b : Nat} {task : Task} {rest : List Task} {m : Move}

theorem gripped_fresh (isa : Isa) : ({ isa } : World).Gripped where
  manned := nofun
  held := nofun

theorem Gripped.manned_step (h : w.Gripped) (hm : w.Manned) (hs : w.Sound)
    (hstep : w.step? a = some w') (hagenda : (w.actors a).agenda = task :: rest) :
    ∀ id ∈ w'.listed, ∃ b, (w'.actors b).attached = true ∧ (w'.actors b).record = some id := by
  have hother : ∀ {b}, b ≠ a → w'.actors b = w.actors b := fun hb => step?_other hs hstep hb
  intro id hid
  cases step?_presence hs hstep hagenda with
  | same hlisted hrecord hattached =>
      obtain ⟨b, hthere, hb⟩ := h.manned id (hlisted ▸ hid)
      by_cases hab : b = a
      · subst hab
        exact ⟨b, hattached.trans hthere, hrecord.trans hb⟩
      · exact ⟨b, by rw [hother hab]; exact hthere, by rw [hother hab]; exact hb⟩
  | came htask hlisted hrecord hattached =>
      rw [hlisted] at hid
      rcases List.mem_append.mp hid with hold | hnew
      · obtain ⟨b, hthere, hb⟩ := h.manned id hold
        have hab : b ≠ a := by
          rintro rfl
          rw [htask] at hagenda
          rw [(hm.coming hagenda).2] at hthere
          cases hthere
        exact ⟨b, by rw [hother hab]; exact hthere, by rw [hother hab]; exact hb⟩
      · rw [List.mem_singleton.mp hnew]
        exact ⟨a, hattached, hrecord⟩
  | went _ hlisted _ _ =>
      obtain ⟨hold, hgone⟩ := (hlisted id).mp hid
      obtain ⟨b, hthere, hb⟩ := h.manned id hold
      have hab : b ≠ a := by
        rintro rfl
        exact hgone hb
      exact ⟨b, by rw [hother hab]; exact hthere, by rw [hother hab]; exact hb⟩

/-- The actor that takes a step with its record goes on to the next phase. -/
theorem Hand.held {phase : LockPhase} {t t' : ThreadRecord} (h : w.Hand a task rest w')
    (hstays : task ≠ .unlist) (hown : w.own? a = some t) (hrec : w.records t.id = some t)
    (hrec' : w'.records t.id = some t') (hbalanced : Balanced phase (task :: rest))
    (hholds : phase.Holds t) : ∃ phase', Balanced phase' (w'.actors a).agenda ∧ phase'.Holds t' := by
  cases h with
  | refused heven hrecords hagenda =>
      obtain ⟨rfl, -⟩ := hbalanced.of_even heven
      rw [hrecords, hrec] at hrec'
      cases hrec'
      rw [hagenda]
      exact ⟨.even, .done, hholds⟩
  | own hown₀ hregrips hagenda =>
      rw [hown] at hown₀
      cases hown₀
      obtain ⟨t₁, phase', hrec₁, hbalanced', hholds'⟩ := hregrips.own hbalanced hholds
      rw [hrec'] at hrec₁
      cases hrec₁
      rw [hagenda]
      exact ⟨phase', hbalanced', hholds'⟩
  | off hoff hagenda =>
      have hgrip := hoff.records t.id
      rw [hrec, hrec'] at hgrip
      cases hgrip with
      | some hgrip =>
          rcases hoff.task with heven | hunlist | hnone
          · obtain ⟨rfl, hrest⟩ := hbalanced.of_even heven
            rw [hagenda]
            exact ⟨.even, hrest.append hoff.even, hholds.same hgrip⟩
          · exact absurd hunlist hstays
          · rw [hown] at hnone
            cases hnone

theorem Gripped.held_step (h : w.Gripped) (hm : w.Manned) (hs : w.Sound)
    (hstep : w.step? a = some w') (hagenda : (w.actors a).agenda = task :: rest)
    {t' : ThreadRecord} (hattached : (w'.actors a).attached = true) (hown' : w'.own? a = some t') :
    ∃ phase, Balanced phase (w'.actors a).agenda ∧ phase.Holds t' := by
  cases step?_presence hs hstep hagenda with
  | went _ _ _ hgone =>
      rw [hgone] at hattached
      cases hattached
  | came htask _ hrecord _ =>
      subst htask
      obtain ⟨t, hrecords, heven, hagenda'⟩ := step?_newcomer hstep hagenda
      unfold own? at hown'
      rw [hrecord, Option.bind_some, hrecords, if_pos rfl] at hown'
      cases hown'
      rw [hagenda', (hm.coming hagenda).1]
      exact ⟨.even, .even rfl .done, heven⟩
  | same _ hrecord hkept =>
      obtain ⟨id, hid', hrec'⟩ := Option.bind_eq_some_iff.mp hown'
      have hid : (w.actors a).record = some id := hrecord.symm.trans hid'
      obtain ⟨t, hrec⟩ := Option.isSome_iff_exists.mp (hs.ledger.owned hid)
      have hown : w.own? a = some t := Option.bind_eq_some_iff.mpr ⟨id, hid, hrec⟩
      obtain rfl : t.id = id := (hs.ledger.numbered hrec).1
      obtain ⟨phase, hbalanced, hholds⟩ := h.held (hkept ▸ hattached) hown
      have hcomes : ∀ name, task ≠ .enlist name := by
        rintro name rfl
        rw [(hm.coming hagenda).2] at hkept
        rw [hkept] at hattached
        cases hattached
      have hstays : task ≠ .unlist := by
        rintro rfl
        simp only [step?, hagenda, perform] at hstep
        cases hstep
        simp at hattached
      exact (step?_hand hs hstep hagenda hcomes).held hstays hown hrec hrec' (hagenda ▸ hbalanced)
        hholds

/-- An actor that does nothing has its thread in hand as before. -/
theorem Gripped.kept (h : w.Gripped) {t' : ThreadRecord} (hattached : (w.actors b).attached = true)
    (hgrip : Option.Rel ThreadRecord.SameGrip (w.own? b) (some t')) :
    ∃ phase, Balanced phase (w.actors b).agenda ∧ phase.Holds t' := by
  generalize hown : w.own? b = own at hgrip
  cases hgrip with
  | some hgrip =>
      obtain ⟨phase, hbalanced, hholds⟩ := h.held hattached hown
      exact ⟨phase, hbalanced, hholds.same hgrip⟩

theorem Gripped.step (h : w.Gripped) (hm : w.Manned) (hs : w.Sound)
    (hstep : w.step? a = some w') : w'.Gripped := by
  obtain ⟨task, rest, hagenda, -⟩ := step?_cases hs hstep
  refine ⟨h.manned_step hm hs hstep hagenda, fun {b t'} hattached hown' => ?_⟩
  by_cases hb : b = a
  · subst hb
    exact h.held_step hm hs hstep hagenda hattached hown'
  · have hgrip := hm.ungripped hs hstep hagenda hb
    rw [hown'] at hgrip
    rw [step?_other hs hstep hb] at hattached ⊢
    exact h.kept hattached hgrip

theorem Gripped.start (h : w.Gripped) {c : Command} (hmove : w.move? (.start a c) = some w') :
    w'.Gripped := by
  obtain ⟨hidle, -, rfl⟩ := move?_start hmove
  have hactor : ∀ b, ((w.setActor a { w.actors a with agenda := c.agenda, refusal := none }).actors
      b).attached = (w.actors b).attached
      ∧ ((w.setActor a { w.actors a with agenda := c.agenda, refusal := none }).actors b).record
        = (w.actors b).record := by
    intro b
    rw [setActor_actors]
    split
    · next hb => rw [hb]; exact ⟨rfl, rfl⟩
    · exact ⟨rfl, rfl⟩
  refine ⟨fun id hid => ?_, fun {b t} hattached hown => ?_⟩
  · obtain ⟨b, hthere, hb⟩ := h.manned id hid
    exact ⟨b, (hactor b).1.trans hthere, (hactor b).2.trans hb⟩
  · unfold own? at hown
    rw [(hactor b).2] at hown
    rw [(hactor b).1] at hattached
    obtain ⟨phase, hbalanced, hholds⟩ := h.held hattached hown
    rw [setActor_actors]
    split
    · next hb =>
        rw [hb, hidle] at hbalanced
        cases hbalanced
        exact ⟨.even, .command c, hholds⟩
    · exact ⟨phase, hbalanced, hholds⟩

theorem Gripped.move (h : w.Gripped) (hm : w.Manned) (hs : w.Sound) (hmove : w.move? m = some w') :
    w'.Gripped := by
  cases m with
  | step a => exact h.step hm hs hmove
  | start a c => exact h.start hmove
  | ask i c =>
      cases hmove
      have hlisted : (w.update i (·.requestCheckpoint c)).listed = w.listed :=
        (mild_update (f := (·.requestCheckpoint c)) hs.ledger.toNumbered i
          fun _ => ⟨rfl, rfl, rfl⟩).listed
      refine ⟨?_, fun {b t'} hattached hown' => ?_⟩
      · rw [hlisted, update_actors]
        exact h.manned
      · have hgrip : Option.Rel ThreadRecord.SameGrip (w.own? b) (some t') := by
          rw [← hown']
          refine grip_own? (by rw [update_actors]) fun id _ => ?_
          exact grip_update (f := (·.requestCheckpoint c)) hs.ledger.toNumbered i (fun _ => rfl)
            (fun _ => ⟨rfl, rfl⟩) id
        rw [update_actors] at hattached ⊢
        exact h.kept hattached hgrip
  | arm implicitChecks =>
      cases hmove
      exact ⟨h.manned, h.held⟩

theorem Reachable.gripped (h : Reachable w) : w.Gripped := by
  induction h with
  | fresh isa => exact gripped_fresh isa
  | move m hreach hmove ih => exact ih.move hreach.manned hreach.sound hmove

/-- A listed thread whose actor is between commands holds the lock just if
it runs managed code. -/
theorem Reachable.held_iff_running (h : Reachable w) {id : Nat} {t : ThreadRecord}
    (hlisted : id ∈ w.listed) (hrec : w.records id = some t) (hidle : ∀ b, w.isIdle b = true) :
    t.heldLock = true ↔ t.state = .runnable := by
  obtain ⟨b, hattached, hrecord⟩ := h.gripped.manned id hlisted
  have hown : w.own? b = some t := Option.bind_eq_some_iff.mpr ⟨id, hrecord, hrec⟩
  obtain ⟨phase, hbalanced, hholds⟩ := h.gripped.held hattached hown
  rw [List.isEmpty_iff.mp (hidle b)] at hbalanced
  cases hbalanced
  exact hholds

end Gripped

end World

end Crossing
