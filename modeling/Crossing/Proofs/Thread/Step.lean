import Crossing.Thread.Session

/-
What the world can do in one move, said once. Most tasks touch one record
and leave its suspend requests alone; `Mild` is what those have in common,
and the only things worth knowing about them are how a thread comes to run
managed code and what an actor has to do next. The remaining tasks come and
go, or stop and resume the world; they are listed one by one in `Deed`.

`Fits` says which agendas there can be: the lock that admits one suspension
at a time is taken, used and given back in order, and a suspended thread is
set running straight after its wait.
-/
namespace Crossing

-- ============================================================= moves

/-- What can happen next, in any order: an actor takes a step, an idle one
sets out on a command, a thread is asked for work, or implicit checks are
switched. -/
inductive Move where
  | step (actor : Nat)
  | start (actor : Nat) (c : Command)
  | ask (thread : Nat) (c : Checkpoint)
  | arm (implicitChecks : Bool)

namespace World

/-- Performs a move, if it is possible. A suspension is ended only by who
has one in force. -/
def move? (w : World) : Move → Option World
  | .step a => w.step? a
  | .start a c =>
      if w.isIdle a ∧ (c = .resumeAll → (w.actors a).guard.isSome) then (w.start a c).toOption
      else none
  | .ask id c => some (w.update id (·.requestCheckpoint c))
  | .arm implicitChecks => some { w with implicitChecks }

/-- The worlds that some order of moves leads to. -/
inductive Reachable : World → Prop where
  | fresh (isa : Isa) : Reachable { isa }
  | move {w w' : World} (m : Move) : Reachable w → w.move? m = some w' → Reachable w'

theorem move?_start {w w' : World} {a : Nat} {c : Command} (h : w.move? (.start a c) = some w') :
    (w.actors a).agenda = [] ∧ (c = .resumeAll → (w.actors a).guard.isSome)
      ∧ w' = w.setActor a { w.actors a with agenda := c.agenda, refusal := none } := by
  simp only [move?] at h
  split at h
  · next hready =>
      refine ⟨List.isEmpty_iff.mp hready.1, hready.2, ?_⟩
      simp only [start] at h
      split at h
      · cases h
      · cases h
      · cases h
        rfl
  · cases h

-- ===================================================== small lemmas

section Update

variable {w : World} {t : ThreadRecord} {a b id : Nat} {x : Actor}

@[simp] theorem setRecord_records :
    (w.setRecord t).records id = if id = t.id then some t else w.records id := rfl
@[simp] theorem setRecord_created : (w.setRecord t).created = w.created := rfl
@[simp] theorem setRecord_listed : (w.setRecord t).listed = w.listed := rfl
@[simp] theorem setRecord_suspendAllCount :
    (w.setRecord t).suspendAllCount = w.suspendAllCount := rfl
@[simp] theorem setRecord_suspensionLock :
    (w.setRecord t).suspensionLock = w.suspensionLock := rfl
@[simp] theorem setRecord_actors : (w.setRecord t).actors = w.actors := rfl

@[simp] theorem setActor_actors :
    (w.setActor a x).actors b = if b = a then x else w.actors b := rfl
@[simp] theorem setActor_records : (w.setActor a x).records = w.records := rfl
@[simp] theorem setActor_created : (w.setActor a x).created = w.created := rfl
@[simp] theorem setActor_listed : (w.setActor a x).listed = w.listed := rfl
@[simp] theorem setActor_suspendAllCount :
    (w.setActor a x).suspendAllCount = w.suspendAllCount := rfl
@[simp] theorem setActor_suspensionLock :
    (w.setActor a x).suspensionLock = w.suspensionLock := rfl

end Update

end World

-- ====================================================== mild changes

/-- A change of a record that leaves its suspend requests alone. -/
structure ThreadRecord.Keeps (t t' : ThreadRecord) : Prop where
  id : t'.id = t.id
  count : t'.suspendCount = t.suspendCount
  flag : t'.word.suspend = t.word.suspend

theorem ThreadRecord.Keeps.refl (t : ThreadRecord) : t.Keeps t := ⟨rfl, rfl, rfl⟩

namespace World

/-- Every record stands under its own number. -/
def Numbered (w : World) : Prop := ∀ {id t}, w.records id = some t → t.id = id

/-- A change that leaves the lock, the list and all suspend requests
alone. -/
structure Mild (w w' : World) : Prop where
  created : w'.created = w.created
  listed : w'.listed = w.listed
  suspendAllCount : w'.suspendAllCount = w.suspendAllCount
  suspensionLock : w'.suspensionLock = w.suspensionLock
  records : ∀ id, Option.Rel ThreadRecord.Keeps (w.records id) (w'.records id)

theorem rel_keeps_refl (o : Option ThreadRecord) : Option.Rel ThreadRecord.Keeps o o := by
  cases o with
  | none => exact .none
  | some t => exact .some (.refl t)

theorem Mild.refl (w : World) : w.Mild w :=
  ⟨rfl, rfl, rfl, rfl, fun _ => rel_keeps_refl _⟩

theorem mild_setRecord {w : World} {t t' : ThreadRecord} (hrec : w.records t.id = some t)
    (hkeeps : t.Keeps t') : w.Mild (w.setRecord t') := by
  refine ⟨rfl, rfl, rfl, rfl, fun id => ?_⟩
  rw [setRecord_records, hkeeps.id]
  by_cases hid : id = t.id
  · subst hid
    rw [if_pos rfl, hrec]
    exact .some hkeeps
  · rw [if_neg hid]
    exact rel_keeps_refl _

@[simp] theorem update_actors (w : World) (id : Nat) (f : ThreadRecord → ThreadRecord) :
    (w.update id f).actors = w.actors := by
  unfold update
  split
  · rfl
  · rfl

theorem mild_update {w : World} (hnum : w.Numbered) (id : Nat) {f : ThreadRecord → ThreadRecord}
    (hkeeps : ∀ t : ThreadRecord, t.Keeps (f t)) : w.Mild (w.update id f) := by
  unfold update
  cases hrec : w.records id with
  | none => exact .refl w
  | some t =>
      have hid : t.id = id := hnum hrec
      exact mild_setRecord (hid.symm ▸ hrec) (hkeeps t)

end World

-- =========================================================== agendas

/-- How far an actor has got with stopping the world: it has nothing to do
with it, it alone may go on to ask, it has asked, it has a guard, it has
given the guard up. -/
inductive Phase where
  | free
  | locked
  | asked
  | held
  | released
deriving DecidableEq

namespace Phase

/-- Between commands an actor is out of it, or has its guard. -/
def Rests (p : Phase) : Prop := p = free ∨ p = held

theorem Rests.ne_asked {p : Phase} (h : p.Rests) : p ≠ asked := by
  rcases h with rfl | rfl
  · nofun
  · nofun

end Phase

namespace Task

/-- The task that sets a suspended thread running again. -/
def wake : Task := .setState .runnable

/-- Tasks that take no part in stopping the world and wake no thread. A
word that is to be swapped for running was seen without a request. -/
def isPlain : Task → Bool
  | lockSuspension | requestAll | awaitStopped _ | releaseAll | unlockSuspension => false
  | setState s => s ≠ .runnable
  | enterSwap seen => !seen.suspend
  | _ => true

end Task

/-- The agendas of an actor in a given phase, between steps. A thread is
woken directly after its wait. -/
inductive Fits : Phase → List Task → Prop where
  | done {p : Phase} : p.Rests → Fits p []
  | plain {p : Phase} {task : Task} {rest : List Task} :
      p.Rests → task.isPlain → Fits p rest → Fits p (task :: rest)
  | resume {p : Phase} {rest : List Task} :
      p.Rests → Fits p rest → Fits p (.awaitResume :: .wake :: rest)
  | lock {p : Phase} {rest : List Task} :
      p.Rests → Fits .locked rest → Fits p (.lockSuspension :: rest)
  | request {rest : List Task} : Fits .held rest → Fits .locked (.requestAll :: rest)
  | await {targets : List Nat} {rest : List Task} :
      Fits .held rest → Fits .asked (.awaitStopped targets :: rest)
  | release {rest : List Task} : Fits .released rest → Fits .held (.releaseAll :: rest)
  | unlock {rest : List Task} : Fits .free rest → Fits .released (.unlockSuspension :: rest)

namespace Fits

variable {p : Phase} {tasks rest : List Task}

/-- Plain tasks can come before any agenda of an actor at rest. -/
theorem append (hp : p.Rests) (htasks : ∀ task ∈ tasks, task.isPlain) (h : Fits p rest) :
    Fits p (tasks ++ rest) := by
  induction tasks with
  | nil => exact h
  | cons task tasks ih =>
      have hrest := ih fun x hx => htasks x (List.mem_cons_of_mem _ hx)
      exact .plain hp (htasks task List.mem_cons_self) hrest

theorem serveSuspension (hp : p.Rests) (h : Fits p rest) :
    Fits p (World.serveSuspension ++ .poll :: rest) :=
  .plain hp rfl (.plain hp rfl (.resume hp (.plain hp rfl (.plain hp rfl h))))

/-- Between its wait and its wake a thread is never at the start. -/
theorem head_ne_wake (h : Fits p tasks) : tasks.head? ≠ some .wake := by
  cases h with
  | plain hp hplain hrest =>
      intro hhead
      cases hhead
      cases hplain
  | _ => nofun

-- The tasks that stop the world tell the phase before and after.

theorem of_lock (h : Fits p (.lockSuspension :: rest)) : p.Rests ∧ Fits .locked rest := by
  cases h with
  | plain _ hplain _ => cases hplain
  | lock hp hrest => exact ⟨hp, hrest⟩

theorem of_request (h : Fits p (.requestAll :: rest)) : p = .locked ∧ Fits .held rest := by
  cases h with
  | plain _ hplain _ => cases hplain
  | request hrest => exact ⟨rfl, hrest⟩

theorem of_await {targets : List Nat} (h : Fits p (.awaitStopped targets :: rest)) :
    p = .asked ∧ Fits .held rest := by
  cases h with
  | plain _ hplain _ => cases hplain
  | await hrest => exact ⟨rfl, hrest⟩

theorem of_release (h : Fits p (.releaseAll :: rest)) : p = .held ∧ Fits .released rest := by
  cases h with
  | plain _ hplain _ => cases hplain
  | release hrest => exact ⟨rfl, hrest⟩

theorem of_unlock (h : Fits p (.unlockSuspension :: rest)) : p = .released ∧ Fits .free rest := by
  cases h with
  | plain _ hplain _ => cases hplain
  | unlock hrest => exact ⟨rfl, hrest⟩

/-- Every command is an agenda for an actor between commands. -/
theorem command (hp : p.Rests) (c : Command) (hguard : c = .resumeAll → p = .held) :
    Fits p c.agenda := by
  have hfree : Phase.free.Rests := .inl rfl
  have hheld : Phase.held.Rests := .inr rfl
  cases c with
  | suspendAll => exact .lock hp (.request (.done hheld))
  | resumeAll =>
      cases hguard rfl
      exact .release (.unlock (.done hfree))
  | flip marking =>
      have hbook : Fits .free (if marking then [] else [.bookCycle]) := by
        cases marking with
        | true => exact .done hfree
        | false => exact .plain hfree rfl (.done hfree)
      exact .plain hp rfl (.lock hp (.request (.plain hheld rfl (.plain hheld rfl
        (.plain hheld rfl (.release (.unlock hbook)))))))
  | _ =>
      rw [← List.append_nil (Command.agenda _)]
      refine append hp ?_ (.done hp)
      simp [Command.agenda, Task.isPlain]

end Fits

-- ============================================================= deeds

/-- Tasks that have a part in stopping the world. -/
def Task.stops : Task → Bool
  | lockSuspension | requestAll | awaitStopped _ | releaseAll | unlockSuspension => true
  | _ => false

theorem Task.stops_of_isPlain {task : Task} (h : task.isPlain = true) : task.stops = false := by
  cases task with
  | lockSuspension => cases h
  | requestAll => cases h
  | awaitStopped _ => cases h
  | releaseAll => cases h
  | unlockSuspension => cases h
  | _ => rfl

namespace World

/-- What a task that has no part in stopping the world can have done. A
thread starts to run only by its own actor's hand. -/
structure Plainly (w : World) (a : Nat) (task : Task) (tasks : List Task) (w' : World) : Prop where
  mild : w.Mild w'
  actors : w'.actors = w.actors
  runs : ∀ {id t'}, w'.records id = some t' → t'.state = .runnable → ∃ t, w.records id = some t
    ∧ (t.state = .runnable
      ∨ (w.actors a).record = some id ∧ (task = .wake ∨ task = .enterSwap t.word))
  waited : task = .awaitResume → tasks = [] ∧ ∀ t, w.own? a = some t → t.word.suspend = false
  ahead : ∀ {p rest}, Phase.Rests p → Fits p rest → Fits p (tasks ++ rest)

/-- What performing a task can lead to. -/
inductive Deed (w : World) (a : Nat) : Task → Progress → Prop where
  | blocked {task : Task} : Deed w a task .blocked
  | refused {task : Task} {v : Violation} : task.isPlain → Deed w a task (.refused v w)
  | plain {task : Task} {tasks : List Task} {w' : World} :
      task.stops = false → Plainly w a task tasks w' → Deed w a task (.next tasks w')
  | enlist {name : String} : Deed w a (.enlist name) (.next [.enter] (w.enlist a name))
  | unlist : Deed w a .unlist (.next []
      { w.setActor a { w.actors a with attached := false } with
        listed := w.listed.filter fun id => some id ≠ (w.actors a).record })
  | lock : w.suspensionLock = none →
      Deed w a .lockSuspension (.next [] { w with suspensionLock := some a })
  | request :
      Deed w a .requestAll (.next [.awaitStopped (w.others (w.actors a).current)] (w.requestAll a))
  | stopped {targets : List Nat} : targets.all w.isStopped →
      Deed w a (.awaitStopped targets) (.next []
        (w.setActor a { w.actors a with guard := some ⟨(w.actors a).current, targets⟩ }))
  | released {g : SuspendGuard} {w' : World} : (w.actors a).guard = some g →
      (w.setActor a { w.actors a with guard := none }).releaseAll g.suspender = .ok w' →
      Deed w a .releaseAll (.next [] w')
  | unreleased {g : SuspendGuard} {v : Violation} : (w.actors a).guard = some g →
      (w.setActor a { w.actors a with guard := none }).releaseAll g.suspender = .error v →
      Deed w a .releaseAll (.refused v
        { w.setActor a { w.actors a with guard := none } with suspensionLock := none })
  | unguarded : (w.actors a).guard = none → Deed w a .releaseAll (.next [] w)
  | unlock : Deed w a .unlockSuspension (.next [] { w with suspensionLock := none })

section Deed

variable {w : World} {a : Nat} {t t' : ThreadRecord} {task : Task} {tasks : List Task}

theorem own?_spec (hnum : w.Numbered) (hown : w.own? a = some t) :
    (w.actors a).record = some t.id ∧ w.records t.id = some t := by
  unfold own? at hown
  cases hrecord : (w.actors a).record with
  | none => rw [hrecord] at hown; cases hown
  | some id =>
      rw [hrecord] at hown
      have hid : t.id = id := hnum hown
      subst hid
      exact ⟨rfl, hown⟩

/-- Nothing is changed. -/
theorem Plainly.same (hwaited : task = .awaitResume →
      tasks = [] ∧ ∀ t, w.own? a = some t → t.word.suspend = false)
    (ahead : ∀ {p rest}, Phase.Rests p → Fits p rest → Fits p (tasks ++ rest)) :
    w.Plainly a task tasks w where
  mild := .refl w
  actors := rfl
  runs hrec hrun := ⟨_, hrec, .inl hrun⟩
  waited := hwaited
  ahead := ahead

/-- The actor changes its own record. -/
theorem Plainly.own (hnum : w.Numbered) (hown : w.own? a = some t) (hkeeps : t.Keeps t')
    (hruns : t'.state = .runnable →
      t.state = .runnable ∨ task = .wake ∨ task = .enterSwap t.word)
    (hwait : task ≠ .awaitResume)
    (ahead : ∀ {p rest}, Phase.Rests p → Fits p rest → Fits p (tasks ++ rest)) :
    w.Plainly a task tasks (w.setRecord t') where
  mild := mild_setRecord (own?_spec hnum hown).2 hkeeps
  actors := rfl
  runs {id t''} hrec hrun := by
    obtain ⟨hrecord, hrec₀⟩ := own?_spec hnum hown
    rw [setRecord_records, hkeeps.id] at hrec
    by_cases hid : id = t.id
    · subst hid
      rw [if_pos rfl] at hrec
      cases hrec
      exact ⟨t, hrec₀, (hruns hrun).imp_right fun h => ⟨hrecord, h⟩⟩
    · rw [if_neg hid] at hrec
      exact ⟨_, hrec, .inl hrun⟩
  waited h := absurd h hwait
  ahead := ahead

/-- A record, whose ever, is changed in a way that does not set it
running. -/
theorem Plainly.update (hnum : w.Numbered) (id : Nat) {f : ThreadRecord → ThreadRecord}
    (hkeeps : ∀ t : ThreadRecord, t.Keeps (f t)) (hstate : ∀ t : ThreadRecord, (f t).state = t.state)
    (hwait : task ≠ .awaitResume) : w.Plainly a task [] (w.update id f) where
  mild := mild_update hnum id hkeeps
  actors := update_actors w id f
  runs {id' t'} hrec hrun := by
    unfold World.update at hrec
    cases hold : w.records id with
    | none => rw [hold] at hrec; exact ⟨_, hrec, .inl hrun⟩
    | some t =>
        rw [hold, setRecord_records, (hkeeps t).id, hnum hold] at hrec
        by_cases hid : id' = id
        · subst hid
          rw [if_pos rfl] at hrec
          cases hrec
          exact ⟨t, hold, .inl (hstate t ▸ hrun)⟩
        · rw [if_neg hid] at hrec
          exact ⟨_, hrec, .inl hrun⟩
  waited h := absurd h hwait
  ahead _ h := h

theorem performOwn_deed (hnum : w.Numbered) (hown : w.own? a = some t)
    (hstops : task.stops = false) : Deed w a task (w.performOwn t task) := by
  have hsame : ∀ tasks : List Task, task ≠ .awaitResume → (∀ x ∈ tasks, x.isPlain) →
      Deed w a task (.next tasks w) := fun tasks hwait htasks =>
    .plain hstops (.same (fun h => absurd h hwait) fun hp hrest => hrest.append hp htasks)
  have hset : ∀ (tasks : List Task) (t' : ThreadRecord), t.Keeps t' →
      (t'.state = .runnable → t.state = .runnable ∨ task = .wake ∨ task = .enterSwap t.word) →
      task ≠ .awaitResume → (∀ x ∈ tasks, x.isPlain) → Deed w a task (.next tasks (w.setRecord t')) :=
    fun tasks t' hkeeps hruns hwait htasks =>
      .plain hstops (.own hnum hown hkeeps hruns hwait fun hp hrest => hrest.append hp htasks)
  cases task with
  | leave =>
      simp only [performOwn]
      split
      · exact .refused rfl
      · split
        · exact hsame _ nofun (by simp [Task.isPlain])
        · exact hsame _ nofun (by simp [Task.isPlain])
  | leaveSwap seen =>
      simp only [performOwn, ThreadRecord.swapState?]
      split
      · next t' hswap =>
          split at hswap
          · cases hswap
            exact hset _ _ ⟨rfl, rfl, rfl⟩ nofun nofun (by simp [Task.isPlain])
          · cases hswap
      · exact hsame _ nofun (by simp [Task.isPlain])
  | enter =>
      simp only [performOwn]
      split
      · exact .refused rfl
      · split
        · exact hsame _ nofun (by simp [Task.isPlain])
        · split
          · exact hsame _ nofun (by simp [Task.isPlain, serveCheckpoints])
          · exact hsame _ nofun (by simp_all [Task.isPlain])
  | enterSwap seen =>
      simp only [performOwn, ThreadRecord.swapState?]
      split
      · next t' hswap =>
          split at hswap
          · next hword =>
              cases hswap
              subst hword
              exact hset _ _ ⟨rfl, rfl, rfl⟩ (fun _ => .inr (.inr rfl)) nofun (by simp [Task.isPlain])
          · cases hswap
      · exact hsame _ nofun (by simp [Task.isPlain])
  | poll =>
      simp only [performOwn]
      split
      · exact hsame _ nofun (by simp [Task.isPlain, serveCheckpoints])
      · split
        · refine .plain hstops (.same nofun fun hp hrest => ?_)
          exact hrest.serveSuspension hp
        · exact hsame _ nofun nofun
  | runCheckpoints =>
      simp only [performOwn]
      split
      · exact hsame _ nofun nofun
      · next c rest _ =>
          refine hset _ _ ⟨rfl, rfl, rfl⟩ .inl nofun ?_
          intro x hx
          rcases List.mem_append.mp hx with hx | hx
          · obtain ⟨c, -, rfl⟩ := List.mem_map.mp hx
            rfl
          · rw [List.mem_singleton.mp hx]
            rfl
  | awaitResume =>
      simp only [performOwn]
      split
      · exact .blocked
      · next hflag =>
          refine .plain hstops (.same (fun _ => ⟨rfl, fun t' hown' => ?_⟩) fun _ h => h)
          rw [hown] at hown'
          cases hown'
          exact Bool.eq_false_iff.mpr hflag
  | setState s =>
      refine hset _ _ ⟨rfl, rfl, rfl⟩ (fun hs => .inr (.inl ?_)) nofun nofun
      exact congrArg Task.setState hs
  | depart =>
      simp only [performOwn]
      split
      · exact hsame _ nofun (by simp [Task.isPlain])
      · exact hsame _ nofun (by simp [Task.isPlain])
  | publishFrame sp tag => exact hset _ _ ⟨rfl, rfl, rfl⟩ .inl nofun nofun
  | dropLock => exact hset _ _ ⟨rfl, rfl, rfl⟩ .inl nofun nofun
  | takeLock => exact hset _ _ ⟨rfl, rfl, rfl⟩ .inl nofun nofun
  | takeCheckpoints => exact hset _ _ ⟨rfl, rfl, rfl⟩ .inl nofun nofun
  | _ => exact hsame _ nofun nofun

/-- Everything a task can lead to. -/
theorem perform_deed (hnum : w.Numbered) (a : Nat) (task : Task) :
    Deed w a task (w.perform a task) := by
  have hmild : ∀ w' : World, w.Mild w' → w'.actors = w.actors → w'.records = w.records →
      task ≠ .awaitResume → task.stops = false → Deed w a task (.next [] w') :=
    fun w' hmild hactors hrecords hwait hstops => .plain hstops
      { mild := hmild
        actors := hactors
        runs := fun hrec hrun => ⟨_, hrecords ▸ hrec, .inl hrun⟩
        waited := fun h => absurd h hwait
        ahead := fun _ h => h }
  cases task with
  | requestCheckpoint id c =>
      exact .plain rfl (.update hnum id (fun _ => ⟨rfl, rfl, rfl⟩) (fun _ => rfl) nofun)
  | enlist name => exact .enlist
  | unlist => exact .unlist
  | lockSuspension =>
      simp only [perform]
      split
      · exact .blocked
      · next hfree => exact .lock (Option.not_isSome_iff_eq_none.mp hfree)
  | requestAll => exact .request
  | awaitStopped targets =>
      simp only [perform]
      split
      · next hstopped => exact .stopped hstopped
      · exact .blocked
  | releaseAll =>
      simp only [perform]
      split
      · next hguard => exact .unguarded hguard
      · next g hguard =>
          split
          · next w' hreleased => exact .released hguard hreleased
          · next v hreleased => exact .unreleased hguard hreleased
  | unlockSuspension => exact .unlock
  | checkPhase marking =>
      simp only [perform]
      split
      · exact hmild w (.refl w) rfl rfl nofun rfl
      · exact .refused rfl
  | flipAll marking =>
      refine .plain rfl (.same nofun fun hp hrest => hrest.append hp ?_)
      intro x hx
      obtain ⟨id, -, rfl⟩ := List.mem_map.mp hx
      rfl
  | flipOne id marking =>
      exact .plain rfl (.update hnum id (fun _ => ⟨rfl, rfl, rfl⟩) (fun _ => rfl) nofun)
  | flipList marking =>
      exact hmild _ ⟨rfl, rfl, rfl, rfl, fun _ => rel_keeps_refl _⟩ rfl rfl nofun rfl
  | flipCollector marking =>
      exact hmild _ ⟨rfl, rfl, rfl, rfl, fun _ => rel_keeps_refl _⟩ rfl rfl nofun rfl
  | bookCycle =>
      exact hmild _ ⟨rfl, rfl, rfl, rfl, fun _ => rel_keeps_refl _⟩ rfl rfl nofun rfl
  | _ =>
      simp only [perform]
      split
      · next t hown => exact performOwn_deed hnum hown rfl
      · next hown =>
          refine .plain rfl (.same (fun _ => ⟨rfl, fun t ht => ?_⟩) fun _ h => h)
          rw [hown] at ht
          cases ht

/-- A step performs the first task of an agenda. -/
theorem step?_deed {w' : World} (hnum : w.Numbered) (h : w.step? a = some w') :
    ∃ task rest, (w.actors a).agenda = task :: rest
      ∧ ((∃ tasks w₁, Deed w a task (.next tasks w₁)
          ∧ w' = w₁.setActor a { w₁.actors a with agenda := tasks ++ rest })
        ∨ ∃ v w₁, Deed w a task (.refused v w₁)
          ∧ w' = w₁.setActor a { w₁.actors a with agenda := [], refusal := some v }) := by
  unfold step? at h
  split at h
  · cases h
  · next task rest hagenda =>
      have hdeed := perform_deed hnum a task
      refine ⟨task, rest, hagenda, ?_⟩
      split at h
      · cases h
      · next v w₁ hperform =>
          cases h
          exact .inr ⟨v, w₁, hperform ▸ hdeed, rfl⟩
      · next tasks w₁ hperform =>
          cases h
          exact .inl ⟨tasks, w₁, hperform ▸ hdeed, rfl⟩

end Deed

end World

end Crossing
