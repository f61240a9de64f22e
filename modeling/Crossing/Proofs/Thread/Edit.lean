import Crossing.Proofs.Thread.Stopped

/-
One step, seen from a single record and from a single agenda. `Edit` lists
what a step can do to the owner, the state and the checkpoints of a record:
a handful of tasks change them, each in its own way, and all the others
spare them. `Follows` lists which tasks a task puts ahead of the rest of
the agenda, and what its actor has read when it does.
-/
namespace Crossing

-- ============================================================ records

/-- A change of a record that leaves alone whose it is, what the thread is
doing, and its checkpoints. -/
structure ThreadRecord.Spares (t t' : ThreadRecord) : Prop where
  id : t'.id = t.id
  owner : t'.owner = t.owner
  state : t'.state = t.state
  checkpoint : t'.word.checkpoint = t.word.checkpoint
  queue : t'.queue = t.queue
  taken : t'.taken = t.taken
  ran : t'.ran = t.ran

theorem ThreadRecord.Spares.refl (t : ThreadRecord) : t.Spares t :=
  ⟨rfl, rfl, rfl, rfl, rfl, rfl, rfl⟩

/-- The record of a thread that has just come. -/
structure ThreadRecord.Newborn (t : ThreadRecord) (owner : Nat) : Prop where
  owner : t.owner = owner
  state : t.state = .native
  checkpoint : t.word.checkpoint = false
  queue : t.queue = []
  taken : t.taken = []
  ran : t.ran = []

theorem ThreadRecord.Newborn.spared {t t' : ThreadRecord} {owner : Nat} (h : t.Newborn owner)
    (hspares : t.Spares t') : t'.Newborn owner where
  owner := hspares.owner.trans h.owner
  state := hspares.state.trans h.state
  checkpoint := hspares.checkpoint.trans h.checkpoint
  queue := hspares.queue.trans h.queue
  taken := hspares.taken.trans h.taken
  ran := hspares.ran.trans h.ran

namespace World

/-- The task does not have to change the record `t`. -/
def Misses (w : World) (a : Nat) (t : ThreadRecord) : Task → Prop
  | .requestCheckpoint id _ => id ≠ t.id
  | .setState _ => w.own? a ≠ some t
  | _ => True

/-- What a task of actor `a` can do to a record. Suspend requests come and
go on listed threads only. -/
inductive Edit (w : World) (a : Nat) (task : Task) (t : ThreadRecord) : ThreadRecord → Prop where
  | spared {t' : ThreadRecord} : w.Misses a t task → t.Spares t' →
      (t.id ∉ w.listed → t'.word.suspend = t.word.suspend) → Edit w a task t t'
  | asked {c : Checkpoint} : task = .requestCheckpoint t.id c →
      Edit w a task t (t.requestCheckpoint c)
  | took : w.own? a = some t → task = .takeCheckpoints → Edit w a task t t.takeCheckpoints
  | ran {c : Checkpoint} {rest : List Checkpoint} : w.own? a = some t → task = .runCheckpoints →
      t.taken = c :: rest → Edit w a task t { t with taken := rest, ran := t.ran ++ [c] }
  | left : w.own? a = some t → task = .leaveSwap t.word → Edit w a task t (t.setState .native)
  | entered : w.own? a = some t → task = .enterSwap t.word → Edit w a task t (t.setState .runnable)
  | set {s : ThreadState} : w.own? a = some t → task = .setState s → Edit w a task t (t.setState s)

/-- What becomes of the record with number `id`. -/
inductive Fate (w : World) (a : Nat) (task : Task) (id : Nat) :
    Option ThreadRecord → Option ThreadRecord → Prop where
  | absent : Fate w a task id none none
  | edited {t t' : ThreadRecord} : Edit w a task t t' → Fate w a task id (some t) (some t')
  | came {name : String} {t' : ThreadRecord} : task = .enlist name → id = w.created + 1 →
      t'.Newborn a → Fate w a task id none (some t')

/-- What becomes of all records. -/
def Fates (w : World) (a : Nat) (task : Task) (w' : World) : Prop :=
  ∀ id, Fate w a task id (w.records id) (w'.records id)

section Fates

variable {w w' : World} {a : Nat} {task : Task} {t t' : ThreadRecord} {ids : List Nat}
  {f : ThreadRecord → ThreadRecord}

theorem Edit.id (h : Edit w a task t t') : t'.id = t.id := by
  cases h with
  | spared _ hspares _ => exact hspares.id
  | _ => rfl

theorem Edit.owner (h : Edit w a task t t') : t'.owner = t.owner := by
  cases h with
  | spared _ hspares _ => exact hspares.owner
  | _ => rfl

theorem fate_refl {i : Nat} (hmisses : ∀ t, w.records i = some t → w.Misses a t task) :
    Fate w a task i (w.records i) (w.records i) := by
  cases hrec : w.records i with
  | none => exact .absent
  | some t => exact .edited (.spared (hmisses t hrec) (.refl t) fun _ => rfl)

theorem fates_same (hmisses : ∀ t, w.Misses a t task) (hrecords : w'.records = w.records) :
    w.Fates a task w' := by
  intro id
  rw [hrecords]
  exact fate_refl fun t _ => hmisses t

theorem fates_setRecord (hnum : w.Numbered) (hown : w.own? a = some t)
    (hasks : ∀ id c, task ≠ .requestCheckpoint id c) (hedit : Edit w a task t t') :
    w.Fates a task (w.setRecord t') := by
  intro id
  rw [setRecord_records, hedit.id]
  by_cases hid : id = t.id
  · rw [if_pos hid, hid, (own?_spec hnum hown).2]
    exact .edited hedit
  · rw [if_neg hid]
    refine fate_refl fun t₀ hrec => ?_
    cases task with
    | requestCheckpoint i c => exact absurd rfl (hasks i c)
    | setState s =>
        show w.own? a ≠ some t₀
        rw [hown]
        rintro ⟨⟩
        exact hid (hnum hrec).symm
    | _ => trivial

/-- All records with some numbers are changed, in a world that has the same
records. -/
theorem fates_updateAll {w₀ : World} (hrecords : w₀.records = w.records) (hnum : w.Numbered)
    (hmisses : ∀ t : ThreadRecord, t.id ∉ ids → w.Misses a t task) (hnodup : ids.Nodup)
    (hid : ∀ t, (f t).id = t.id)
    (hedit : ∀ {t}, t.id ∈ ids → Edit w a task t (f t)) :
    w.Fates a task (w₀.updateAll ids f) := by
  intro id
  have hnum₀ : w₀.Numbered := fun {id t} hrec => hnum (by rw [← hrecords]; exact hrec)
  rw [updateAll_records hnum₀ hid hnodup, hrecords]
  by_cases hmem : id ∈ ids
  · rw [if_pos hmem]
    cases hrec : w.records id with
    | none => exact .absent
    | some t => exact .edited (hedit (hnum hrec ▸ hmem))
  · rw [if_neg hmem]
    exact fate_refl fun t hrec => hmisses t (hnum hrec ▸ hmem)

theorem fates_update (hnum : w.Numbered) (id : Nat)
    (hmisses : ∀ t : ThreadRecord, t.id ≠ id → w.Misses a t task) (hid : ∀ t, (f t).id = t.id)
    (hedit : ∀ {t}, t.id = id → Edit w a task t (f t)) :
    w.Fates a task (w.update id f) := by
  show w.Fates a task (w.updateAll [id] f)
  exact fates_updateAll rfl hnum (fun t ht => hmisses t fun h => ht (List.mem_singleton.mpr h))
    (by simp) hid fun hmem => hedit (List.mem_singleton.mp hmem)

theorem requestSuspend_spares (t : ThreadRecord) (n : Nat) : t.Spares (t.requestSuspend n) := by
  unfold ThreadRecord.requestSuspend
  split
  · exact .refl t
  · exact ⟨rfl, rfl, rfl, rfl, rfl, rfl, rfl⟩

theorem ask_spares (implicitChecks : Bool) (t : ThreadRecord) :
    t.Spares (ask implicitChecks t) := by
  have hspares := requestSuspend_spares t 1
  cases implicitChecks with
  | true => exact ⟨hspares.1, hspares.2, hspares.3, hspares.4, hspares.5, hspares.6, hspares.7⟩
  | false => exact hspares

theorem fates_enlist (hledger : w.Ledger w.inForce) (name : String) :
    w.Fates a (.enlist name) (w.enlist a name) := by
  intro id
  have hnew : w.records (w.created + 1) = none := by
    cases hrec : w.records (w.created + 1) with
    | none => rfl
    | some t =>
        have := (hledger.numbered hrec).2
        omega
  let fresh := ThreadRecord.fresh (w.created + 1) name w.isa a
  let t := if w.marking then fresh.flip w.isa true else fresh
  have hborn : t.id = w.created + 1 ∧ t.Newborn a := by
    by_cases hmarking : w.marking
    · simp only [t, hmarking, if_true]
      exact ⟨rfl, rfl, rfl, rfl, rfl, rfl, rfl⟩
    · simp only [t, hmarking, Bool.false_eq_true, if_false]
      exact ⟨rfl, rfl, rfl, rfl, rfl, rfl, rfl⟩
  have hspares := requestSuspend_spares t w.suspendAllCount
  have hid : (t.requestSuspend w.suspendAllCount).id = w.created + 1 := hspares.id.trans hborn.1
  have hrecords : (w.enlist a name).records id
      = if id = (t.requestSuspend w.suspendAllCount).id then
          some (t.requestSuspend w.suspendAllCount) else w.records id := rfl
  rw [hrecords, hid]
  by_cases heq : id = w.created + 1
  · rw [if_pos heq, heq, hnew]
    exact .came rfl rfl (hborn.2.spared hspares)
  · rw [if_neg heq]
    exact fate_refl fun _ _ => trivial

theorem performOwn_fates (hnum : w.Numbered) (hown : w.own? a = some t)
    {tasks : List Task} {w₁ : World} (h : w.performOwn t task = .next tasks w₁)
    (hasks : ∀ id c, task ≠ .requestCheckpoint id c) : w.Fates a task w₁ := by
  have hset : ∀ {t'}, Edit w a task t t' → w.Fates a task (w.setRecord t') :=
    fun hedit => fates_setRecord hnum hown hasks hedit
  have hsame : (∀ t, w.Misses a t task) → w.Fates a task w := fun hmisses => fates_same hmisses rfl
  have hspare : ∀ {t' : ThreadRecord}, w.Misses a t task → t.Spares t' →
      t'.word.suspend = t.word.suspend → w.Fates a task (w.setRecord t') :=
    fun hmisses hspares hflag => hset (.spared hmisses hspares fun _ => hflag)
  cases task with
  | leave =>
      simp only [performOwn] at h
      split at h
      · cases h
      · split at h
        · cases h; exact hsame fun _ => trivial
        · cases h; exact hsame fun _ => trivial
  | leaveSwap seen =>
      simp only [performOwn, ThreadRecord.swapState?] at h
      split at h
      · next hswap =>
          split at hswap
          · next hword =>
              cases hswap
              cases h
              exact hset (.left hown (by rw [hword]))
          · cases hswap
      · cases h; exact hsame fun _ => trivial
  | enter =>
      simp only [performOwn] at h
      split at h
      · cases h
      · split at h
        · cases h; exact hsame fun _ => trivial
        · split at h
          · cases h; exact hsame fun _ => trivial
          · cases h; exact hsame fun _ => trivial
  | enterSwap seen =>
      simp only [performOwn, ThreadRecord.swapState?] at h
      split at h
      · next hswap =>
          split at hswap
          · next hword =>
              cases hswap
              cases h
              exact hset (.entered hown (by rw [hword]))
          · cases hswap
      · cases h; exact hsame fun _ => trivial
  | poll =>
      simp only [performOwn] at h
      split at h
      · cases h; exact hsame fun _ => trivial
      · split at h
        · cases h; exact hsame fun _ => trivial
        · cases h; exact hsame fun _ => trivial
  | takeCheckpoints => cases h; exact hset (.took hown rfl)
  | runCheckpoints =>
      simp only [performOwn] at h
      split at h
      · cases h; exact hsame fun _ => trivial
      · next htaken => cases h; exact hset (.ran hown rfl htaken)
  | setState s => cases h; exact hset (.set hown rfl)
  | awaitResume =>
      simp only [performOwn] at h
      split at h
      · cases h
      · cases h; exact hsame fun _ => trivial
  | depart =>
      simp only [performOwn] at h
      split at h
      · cases h; exact hsame fun _ => trivial
      · cases h; exact hsame fun _ => trivial
  | publishFrame sp tag => cases h; exact hspare trivial ⟨rfl, rfl, rfl, rfl, rfl, rfl, rfl⟩ rfl
  | dropLock => cases h; exact hspare trivial ⟨rfl, rfl, rfl, rfl, rfl, rfl, rfl⟩ rfl
  | takeLock => cases h; exact hspare trivial ⟨rfl, rfl, rfl, rfl, rfl, rfl, rfl⟩ rfl
  | requestCheckpoint id c => exact absurd rfl (hasks id c)
  | _ => cases h; exact hsame fun _ => trivial

/-- Everything that performing a task can do to records. -/
theorem perform_fates (hs : w.Sound) {tasks : List Task} {w₁ : World}
    (h : w.perform a task = .next tasks w₁) : w.Fates a task w₁ := by
  have hnum : w.Numbered := hs.ledger.toNumbered
  have hnodup : ∀ suspender, (w.others suspender).Nodup := fun _ =>
    hs.ledger.distinct.sublist List.filter_sublist
  cases task with
  | requestCheckpoint id c =>
      cases h
      refine fates_update hnum id (fun _ ht h => ht h.symm) (fun _ => rfl) fun hid => ?_
      exact .asked (by rw [hid])
  | enlist name => cases h; exact fates_enlist hs.ledger name
  | requestAll =>
      cases h
      rw [requestAll_eq]
      refine fates_updateAll rfl hnum (fun _ _ => trivial) (hnodup _) (ask_id _) fun hmem => ?_
      exact .spared trivial (ask_spares _ _) fun hout => absurd (mem_others.mp hmem).1 hout
  | releaseAll =>
      simp only [perform] at h
      split at h
      · cases h; exact fates_same (fun _ => trivial) rfl
      · next g hguard =>
          rw [(hs.release_ok hguard).1] at h
          cases h
          unfold letAllGo
          refine fates_updateAll rfl hnum (fun _ _ => trivial) (hnodup g.suspender)
            (fun _ => rfl) fun hmem => ?_
          exact .spared trivial ⟨rfl, rfl, rfl, rfl, rfl, rfl, rfl⟩ fun hout =>
            absurd (mem_others.mp hmem).1 hout
  | flipOne id marking =>
      cases h
      refine fates_update hnum id (fun _ _ => trivial) (fun _ => rfl) fun _ => ?_
      exact .spared trivial ⟨rfl, rfl, rfl, rfl, rfl, rfl, rfl⟩ fun _ => rfl
  | lockSuspension =>
      simp only [perform] at h
      split at h
      · cases h
      · cases h; exact fates_same (fun _ => trivial) rfl
  | awaitStopped targets =>
      simp only [perform] at h
      split at h
      · cases h; exact fates_same (fun _ => trivial) rfl
      · cases h
  | checkPhase marking =>
      simp only [perform] at h
      split at h
      · cases h; exact fates_same (fun _ => trivial) rfl
      · cases h
  | unlist => cases h; exact fates_same (fun _ => trivial) rfl
  | unlockSuspension => cases h; exact fates_same (fun _ => trivial) rfl
  | flipAll marking => cases h; exact fates_same (fun _ => trivial) rfl
  | flipList marking => cases h; exact fates_same (fun _ => trivial) rfl
  | flipCollector marking => cases h; exact fates_same (fun _ => trivial) rfl
  | bookCycle => cases h; exact fates_same (fun _ => trivial) rfl
  | _ =>
      simp only [perform] at h
      split at h
      · next t hown => exact performOwn_fates hnum hown h (by simp)
      · next hown =>
          cases h
          refine fates_same (fun t => ?_) rfl
          simp [Misses, hown]

end Fates

-- ============================================================ agendas

/-- The tasks that a task puts ahead of the rest of the agenda, with what
the actor has read of its own record. -/
inductive Follows (w : World) (a : Nat) : Task → List Task → Prop where
  | nothing {task : Task} :
      (task = .awaitResume → ∀ t, w.own? a = some t → t.word.suspend = false) → Follows w a task []
  | leaveQuiet {t : ThreadRecord} : w.own? a = some t → t.state = .runnable →
      t.word.isQuiet = true → Follows w a .leave [.leaveSwap t.word]
  | leaveBusy : Follows w a .leave [.poll, .leave]
  | left {seen : StateWord} : Follows w a (.leaveSwap seen) [.dropLock]
  | leaveAgain {seen : StateWord} : Follows w a (.leaveSwap seen) [.leave]
  | enterWait {t : ThreadRecord} : w.own? a = some t → t.state = .native →
      Follows w a .enter [.awaitResume, .enter]
  | enterServe : Follows w a .enter (serveCheckpoints ++ [.enter])
  | enterQuiet {t : ThreadRecord} : w.own? a = some t → t.state = .native →
      t.word.checkpoint = false → Follows w a .enter [.enterSwap t.word]
  | entered {seen : StateWord} : Follows w a (.enterSwap seen) [.takeLock]
  | enterAgain {seen : StateWord} : Follows w a (.enterSwap seen) [.enter]
  | pollServe : Follows w a .poll (serveCheckpoints ++ [.poll])
  | pollSuspend {t : ThreadRecord} : w.own? a = some t → t.word.suspend = true →
      Follows w a .poll (serveSuspension ++ [.poll])
  | ran {t : ThreadRecord} {cs : List Checkpoint} : w.own? a = some t →
      Follows w a .runCheckpoints (cs.map (.requestCheckpoint t.id) ++ [.runCheckpoints])
  | departRunning {sp : Nat} :
      Follows w a .depart [.publishFrame sp false, .leave, .setState .terminated, .unlist]
  | departStopped : Follows w a .depart [.setState .terminated, .unlist]
  | came {name : String} : Follows w a (.enlist name) [.enter]
  | requested {targets : List Nat} : Follows w a .requestAll [.awaitStopped targets]
  | flipped {ids : List Nat} {marking : Bool} :
      Follows w a (.flipAll marking) (ids.map (.flipOne · marking))

section Follows

variable {w : World} {a : Nat} {task : Task} {t : ThreadRecord}

theorem performOwn_follows (hown : w.own? a = some t) {tasks : List Task} {w₁ : World}
    (h : w.performOwn t task = .next tasks w₁) : Follows w a task tasks := by
  cases task with
  | leave =>
      simp only [performOwn] at h
      split at h
      · cases h
      · next hstate =>
          split at h
          · next hquiet => cases h; exact .leaveQuiet hown (Decidable.not_not.mp hstate) hquiet
          · cases h; exact .leaveBusy
  | leaveSwap seen =>
      simp only [performOwn] at h
      split at h
      · cases h; exact .left
      · cases h; exact .leaveAgain
  | enter =>
      simp only [performOwn] at h
      split at h
      · cases h
      · next hstate =>
          split at h
          · cases h; exact .enterWait hown (Decidable.not_not.mp hstate)
          · split at h
            · cases h; exact .enterServe
            · next hflag =>
                cases h
                exact .enterQuiet hown (Decidable.not_not.mp hstate) (Bool.eq_false_iff.mpr hflag)
  | enterSwap seen =>
      simp only [performOwn] at h
      split at h
      · cases h; exact .entered
      · cases h; exact .enterAgain
  | poll =>
      simp only [performOwn] at h
      split at h
      · cases h; exact .pollServe
      · split at h
        · next hflag => cases h; exact .pollSuspend hown hflag
        · cases h; exact .nothing (by simp)
  | runCheckpoints =>
      simp only [performOwn] at h
      split at h
      · cases h; exact .nothing (by simp)
      · cases h; exact .ran hown
  | awaitResume =>
      simp only [performOwn] at h
      split at h
      · cases h
      · next hflag =>
          cases h
          refine .nothing fun _ t' hown' => ?_
          rw [hown] at hown'
          cases hown'
          exact Bool.eq_false_iff.mpr hflag
  | depart =>
      simp only [performOwn] at h
      split at h
      · cases h; exact .departRunning
      · cases h; exact .departStopped
  | _ => cases h; exact .nothing (by simp)

/-- Everything that performing a task can put on the agenda. -/
theorem perform_follows {tasks : List Task} {w₁ : World} (h : w.perform a task = .next tasks w₁) :
    Follows w a task tasks := by
  cases task with
  | enlist name => cases h; exact .came
  | requestAll => cases h; exact .requested
  | flipAll marking => cases h; exact .flipped
  | lockSuspension =>
      simp only [perform] at h
      split at h
      · cases h
      · cases h; exact .nothing (by simp)
  | awaitStopped targets =>
      simp only [perform] at h
      split at h
      · cases h; exact .nothing (by simp)
      · cases h
  | releaseAll =>
      simp only [perform] at h
      split at h
      · cases h; exact .nothing (by simp)
      · split at h
        · cases h; exact .nothing (by simp)
        · cases h
  | checkPhase marking =>
      simp only [perform] at h
      split at h
      · cases h; exact .nothing (by simp)
      · cases h
  | requestCheckpoint id c => cases h; exact .nothing (by simp)
  | unlist => cases h; exact .nothing (by simp)
  | unlockSuspension => cases h; exact .nothing (by simp)
  | flipOne id marking => cases h; exact .nothing (by simp)
  | flipList marking => cases h; exact .nothing (by simp)
  | flipCollector marking => cases h; exact .nothing (by simp)
  | bookCycle => cases h; exact .nothing (by simp)
  | _ =>
      simp only [perform] at h
      split at h
      · next t hown => exact performOwn_follows hown h
      · next hown =>
          cases h
          refine .nothing fun _ t ht => ?_
          rw [hown] at ht
          cases ht

end Follows

-- =============================================================== step

/-- What is left to do after a task, of which `rest` was left before. A
refusal drops the whole agenda. -/
def Leads (w : World) (a : Nat) (task : Task) (rest agenda : List Task) : Prop :=
  agenda = [] ∨ ∃ tasks, Follows w a task tasks ∧ agenda = tasks ++ rest

/-- What holds of all that follows and of all that was left holds of the
whole agenda. -/
theorem Leads.forall {w : World} {a : Nat} {task : Task} {rest agenda : List Task} {P : Task → Prop}
    (h : w.Leads a task rest agenda)
    (hfollows : ∀ {tasks}, Follows w a task tasks → ∀ next ∈ tasks, P next)
    (hrest : ∀ next ∈ rest, P next) : ∀ next ∈ agenda, P next := by
  obtain rfl | ⟨tasks, htasks, rfl⟩ := h
  · nofun
  · intro next hmem
    exact (List.mem_append.mp hmem).elim (hfollows htasks next) (hrest next)

/-- Both sides of a step: what becomes of the records and of the agenda. -/
theorem step?_cases {w w' : World} {a : Nat} (hs : w.Sound) (h : w.step? a = some w') :
    ∃ task rest, (w.actors a).agenda = task :: rest ∧ w.Fates a task w'
      ∧ w.Leads a task rest (w'.actors a).agenda := by
  have hnum : w.Numbered := hs.ledger.toNumbered
  unfold step? at h
  split at h
  · cases h
  · next task rest hagenda =>
      refine ⟨task, rest, hagenda, ?_⟩
      split at h
      · cases h
      · next v w₁ hperform =>
          cases h
          refine ⟨?_, .inl (by rw [setActor_actors, if_pos rfl])⟩
          have hmisses : ∀ t, w.Misses a t task := fun t => by
            cases task with
            | requestCheckpoint id c => cases hperform
            | setState s => simp only [perform] at hperform; split at hperform <;> cases hperform
            | _ => trivial
          have hdeed := perform_deed hnum a task
          rw [hperform] at hdeed
          cases hdeed with
          | refused _ => exact fates_same hmisses rfl
          | unreleased _ _ => exact fates_same hmisses rfl
      · next tasks w₁ hperform =>
          cases h
          have hfates : w.Fates a task w₁ := perform_fates hs hperform
          refine ⟨hfates, .inr ⟨tasks, perform_follows hperform, ?_⟩⟩
          rw [setActor_actors, if_pos rfl]

end World

end Crossing
