import Crossing.Proofs.Thread.Edit

/-
Whose thread a record is. A record is made for one actor and stays that
actor's; it is listed from the moment the actor comes until it goes; and
only an actor that is there runs managed code. The last one needs a look at
agendas: an actor that goes has set its thread to terminated before it
leaves the list, and afterwards neither of the two swaps finds the state it
was prepared from.

A thread that waits for a resume does not run (`Parks`): whoever puts the
wait on its agenda has left managed code, or sets the state first.
-/
namespace Crossing

-- ============================================================ agendas

namespace Task

/-- The task was put on the agenda for good reason: a swap was prepared from
the state it leaves, and no task just says that the thread is in native
code. -/
def isFaithful : Task → Bool
  | leaveSwap seen => seen.state = .runnable
  | enterSwap seen => seen.state = .native
  | setState s => s ≠ .native
  | _ => true

/-- The task is neither about coming nor about going. -/
def stays : Task → Bool
  | enlist _ | depart | unlist => false
  | _ => true

/-- The task can change the state of a thread. -/
def changesState : Task → Bool
  | leaveSwap _ | enterSwap _ | setState _ => true
  | _ => false

/-- Whether a thread is known not to run before each wait of an agenda,
given whether it is known not to run at the start. -/
def parks : Bool → List Task → Bool
  | _, [] => true
  | stopped, .awaitResume :: rest => stopped && parks stopped rest
  | _, .setState s :: rest => parks (s ≠ .runnable) rest
  | stopped, .dropLock :: rest => parks stopped rest
  | _, _ :: rest => parks false rest

end Task

/-- How far an actor has got with coming or going. -/
inductive Actor.Stage (x : Actor) (own : Option ThreadRecord) : Prop where
  | within : (∀ task ∈ x.agenda, task.stays) → Stage x own
  | coming {name : String} : x.agenda = [.enlist name] → x.attached = false → Stage x own
  | departing : x.agenda = [.depart] → x.attached = true → Stage x own
  | going (tasks : List Task) : x.agenda = tasks ++ [.setState .terminated, .unlist] →
      (∀ task ∈ tasks, task.stays) → x.attached = true → Stage x own
  | ended : x.agenda = [.unlist] → x.attached = true →
      (∀ t, own = some t → t.state = .terminated) → Stage x own

namespace World

section Follows

variable {w : World} {a : Nat} {task : Task} {tasks : List Task}

theorem Follows.faithful (h : Follows w a task tasks) : ∀ next ∈ tasks, next.isFaithful := by
  cases h with
  | leaveQuiet _ hstate _ => simpa [Task.isFaithful, ThreadRecord.state] using hstate
  | enterQuiet _ hstate _ => simpa [Task.isFaithful, ThreadRecord.state] using hstate
  | ran _ => simp [Task.isFaithful, or_imp, forall_and]
  | flipped => simp [Task.isFaithful]
  | _ => simp [Task.isFaithful, serveCheckpoints, serveSuspension]

theorem Follows.stays (h : Follows w a task tasks) (hdepart : task ≠ .depart) :
    ∀ next ∈ tasks, next.stays := by
  cases h with
  | ran _ => simp [Task.stays, or_imp, forall_and]
  | flipped => simp [Task.stays]
  | departRunning => exact absurd rfl hdepart
  | departStopped => exact absurd rfl hdepart
  | _ => simp [Task.stays, serveCheckpoints, serveSuspension]

/-- A thread is to be woken only after it has seen a suspend request. -/
theorem Follows.wakes (h : Follows w a task tasks) (hwake : .wake ∈ tasks) :
    ∃ t, w.own? a = some t ∧ t.word.suspend = true := by
  cases h with
  | pollSuspend hown hflag => exact ⟨_, hown, hflag⟩
  | _ => simp [Task.wake, serveCheckpoints] at hwake

end Follows

-- ============================================================ waiting

section Parks

variable {w : World} {a : Nat} {task : Task} {tasks rest : List Task}

/-- To know that the thread does not run never hurts. -/
theorem parks_mono (stopped : Bool) (h : Task.parks false tasks = true) :
    Task.parks stopped tasks = true := by
  induction tasks generalizing stopped with
  | nil => rfl
  | cons task tasks ih =>
      cases task with
      | awaitResume => cases h
      | dropLock => exact ih stopped h
      | _ => exact h

theorem parks_append (stopped : Bool) (hwait : ∀ task ∈ tasks, task ≠ .awaitResume)
    (h : Task.parks false rest = true) : Task.parks stopped (tasks ++ rest) = true := by
  induction tasks generalizing stopped with
  | nil => exact parks_mono stopped h
  | cons task tasks ih =>
      have ih := fun stopped => ih stopped fun next hmem => hwait next (List.mem_cons_of_mem _ hmem)
      cases task with
      | awaitResume => exact absurd rfl (hwait _ List.mem_cons_self)
      | _ => exact ih _

theorem Edit.state {t t' : ThreadRecord} (h : Edit w a task t t')
    (hstate : task.changesState = false) : t'.state = t.state := by
  cases h with
  | spared _ hspares _ => exact hspares.state
  | left _ htask => rw [htask] at hstate; cases hstate
  | entered _ htask => rw [htask] at hstate; cases hstate
  | set _ htask => rw [htask] at hstate; cases hstate
  | _ => rfl

theorem Edit.setState {t t' : ThreadRecord} {s : ThreadState} (h : Edit w a (.setState s) t t')
    (hown : w.own? a = some t) : t'.state = s := by
  cases h with
  | spared hmisses _ _ => exact absurd hown hmisses
  | set _ htask => cases htask; rfl
  | asked htask => cases htask
  | took _ htask => cases htask
  | ran _ htask _ => cases htask
  | left _ htask => cases htask
  | entered _ htask => cases htask

theorem Edit.stopped {own own' : Option ThreadRecord} (h : Option.Rel (Edit w a task) own own')
    (hstate : task.changesState = false) : own'.all (·.isStopped) = own.all (·.isStopped) := by
  cases h with
  | none => rfl
  | some hedit => simp only [Option.all_some, ThreadRecord.isStopped, hedit.state hstate]

/-- An actor goes on with the record it has: before every wait its thread is
still known not to run. -/
theorem Follows.parks {own' : Option ThreadRecord} (h : Follows w a task tasks)
    (hedit : Option.Rel (Edit w a task) (w.own? a) own')
    (hparks : Task.parks ((w.own? a).all (·.isStopped)) (task :: rest) = true) :
    Task.parks (own'.all (·.isStopped)) (tasks ++ rest) = true := by
  cases h with
  | nothing _ =>
      cases task with
      | awaitResume =>
          rw [Edit.stopped hedit rfl]
          exact (Bool.and_eq_true_iff.mp hparks).2
      | dropLock =>
          rw [Edit.stopped hedit rfl]
          exact hparks
      | setState s =>
          generalize hown : w.own? a = own at hedit
          cases hedit with
          | none =>
              show Task.parks true rest = true
              cases hs : decide (s ≠ .runnable) with
              | true => simpa [Task.parks, hs] using hparks
              | false => exact parks_mono _ (by simpa [Task.parks, hs] using hparks)
          | some hedit =>
              rw [Option.all_some, ThreadRecord.isStopped, hedit.setState hown]
              exact hparks
      | _ => exact parks_mono _ hparks
  | enterWait hown hnative =>
      have hstopped : own'.all (·.isStopped) = true := by
        rw [Edit.stopped hedit rfl, hown]
        simp [ThreadRecord.isStopped, hnative]
      rw [hstopped]
      exact hparks
  | pollSuspend _ _ => exact hparks
  | ran _ => exact parks_append _ (by simp [or_imp, forall_and]) hparks
  | flipped => exact parks_append _ (by simp) hparks
  | _ => exact parks_append _ (by simp [serveCheckpoints]) hparks

end Parks

-- =========================================================== presence

/-- Who is listed, and with which record, after a step of actor `a`. -/
inductive Presence (w : World) (a : Nat) (task : Task) (w' : World) : Prop where
  | same : w'.listed = w.listed → (w'.actors a).record = (w.actors a).record →
      (w'.actors a).attached = (w.actors a).attached → Presence w a task w'
  | came {name : String} : task = .enlist name → w'.listed = w.listed ++ [w.created + 1] →
      (w'.actors a).record = some (w.created + 1) → (w'.actors a).attached = true →
      Presence w a task w'
  | went : task = .unlist → (∀ id, id ∈ w'.listed ↔ id ∈ w.listed ∧ (w.actors a).record ≠ some id) →
      (w'.actors a).record = (w.actors a).record → (w'.actors a).attached = false →
      Presence w a task w'

theorem step?_presence {w w' : World} {a : Nat} {task : Task} {rest : List Task} (hs : w.Sound)
    (hstep : w.step? a = some w') (hagenda : (w.actors a).agenda = task :: rest) :
    Presence w a task w' := by
  obtain ⟨task', rest', hagenda', hdeed⟩ := step?_deed hs.ledger.toNumbered hstep
  rw [hagenda] at hagenda'
  cases hagenda'
  obtain ⟨tasks, w₁, hdeed, rfl⟩ | ⟨v, w₁, hdeed, rfl⟩ := hdeed
  · cases hdeed with
    | plain _ hplain =>
        refine .same hplain.mild.listed ?_ ?_
        · rw [setActor_actors, if_pos rfl, hplain.actors]
        · rw [setActor_actors, if_pos rfl, hplain.actors]
    | enlist => exact .came rfl rfl (by simp [World.enlist]) (by simp [World.enlist])
    | unlist =>
        refine .went rfl (fun id => ?_) (by simp) (by simp)
        rw [setActor_listed, List.mem_filter, decide_eq_true_iff]
        exact and_congr_right fun _ => ne_comm
    | request =>
        obtain ⟨records, hrecords⟩ := w.requestAll_frame a
        rw [hrecords]
        exact .same rfl (by simp) (by simp)
    | released hguard hreleased =>
        obtain ⟨records, hrecords⟩ := letAllGo_frame _ _
        rw [hs.released_eq hguard hreleased, hrecords]
        exact .same rfl (by simp) (by simp)
    | _ => exact .same rfl (by simp) (by simp)
  · cases hdeed with
    | refused _ => exact .same rfl (by simp) (by simp)
    | unreleased _ _ => exact .same rfl (by simp) (by simp)

/-- What is left of an actor that has gone: a record that nobody lists and
that nothing sets running again. -/
structure Gone (w : World) (b : Nat) (t : ThreadRecord) : Prop where
  unlisted : t.id ∉ w.listed
  native : t.state ≠ .native
  runnable : t.state ≠ .runnable
  asleep : (w.actors b).agenda.head? ≠ some .wake
  request : .wake ∈ (w.actors b).agenda → t.word.suspend = true

/-- Every record is one actor's, and whoever runs managed code is there. -/
structure Manned (w : World) : Prop where
  owner : ∀ {b id t}, (w.actors b).record = some id → w.records id = some t → t.owner = b
  listed : ∀ {b}, (w.actors b).attached = true → ∃ id ∈ w.listed, (w.actors b).record = some id
  running : ∀ {id t}, w.records id = some t → t.state = .runnable →
    (w.actors t.owner).record = some id ∧ (w.actors t.owner).attached = true
  faithful : ∀ b, ∀ task ∈ (w.actors b).agenda, task.isFaithful
  stage : ∀ b, (w.actors b).Stage (w.own? b)
  parks : ∀ b, Task.parks ((w.own? b).all (·.isStopped)) (w.actors b).agenda = true
  gone : ∀ {b t}, (w.actors b).attached = false → w.own? b = some t → w.Gone b t

theorem manned_fresh (isa : Isa) : ({ isa } : World).Manned where
  owner := nofun
  listed := nofun
  running := nofun
  faithful _ := nofun
  stage _ := .within nofun
  parks _ := rfl
  gone := nofun

section Step

variable {w w' : World} {a b : Nat} {task : Task} {rest : List Task}

/-- Two actors have different records. -/
theorem Manned.own_ne (h : w.Manned) (hs : w.Sound) {t : ThreadRecord} (hown : w.own? a = some t)
    (hb : b ≠ a) : w.own? b ≠ some t := by
  intro hown'
  obtain ⟨hrecord, hrec⟩ := own?_spec hs.ledger.toNumbered hown
  obtain ⟨hrecord', hrec'⟩ := own?_spec hs.ledger.toNumbered hown'
  exact hb ((h.owner hrecord' hrec').symm.trans (h.owner hrecord hrec))

/-- A record that was there is edited. -/
theorem Fates.edit (hfates : w.Fates a task w') {id : Nat} {t : ThreadRecord}
    (hrec : w.records id = some t) : ∃ t', w'.records id = some t' ∧ Edit w a task t t' := by
  have hfate := hfates id
  rw [hrec] at hfate
  cases hnew : w'.records id with
  | none => rw [hnew] at hfate; cases hfate
  | some t' =>
      rw [hnew] at hfate
      cases hfate with
      | edited hedit => exact ⟨t', rfl, hedit⟩

/-- An actor's record, if it stays the same one. -/
theorem Fates.own (hfates : w.Fates a task w') (hs : w.Sound)
    (hrecord : (w'.actors b).record = (w.actors b).record) :
    Option.Rel (Edit w a task) (w.own? b) (w'.own? b) := by
  unfold own?
  rw [hrecord]
  cases hid : (w.actors b).record with
  | none => exact .none
  | some id =>
      obtain ⟨t, hrec⟩ := Option.isSome_iff_exists.mp (hs.ledger.owned hid)
      obtain ⟨t', hrec', hedit⟩ := hfates.edit hrec
      rw [Option.bind_some, Option.bind_some, hrec, hrec']
      exact .some hedit

/-- What a thread keeps while others move: its state, and its suspend
request unless it is listed. -/
structure Undisturbed (w : World) (t t' : ThreadRecord) : Prop where
  id : t'.id = t.id
  state : t'.state = t.state
  flag : t.id ∉ w.listed → t'.word.suspend = t.word.suspend

theorem Edit.undisturbed {t t' : ThreadRecord} (h : Edit w a task t t') (hown : w.own? a ≠ some t) :
    w.Undisturbed t t' := by
  cases h with
  | spared _ hspares hflag => exact ⟨hspares.id, hspares.state, hflag⟩
  | asked _ => exact ⟨rfl, rfl, fun _ => rfl⟩
  | took hown' _ => exact absurd hown' hown
  | ran hown' _ _ => exact absurd hown' hown
  | left hown' _ => exact absurd hown' hown
  | entered hown' _ => exact absurd hown' hown
  | set hown' _ => exact absurd hown' hown

theorem Manned.undisturbed (h : w.Manned) (hs : w.Sound) (hfates : w.Fates a task w') (hb : b ≠ a)
    (hrecord : (w'.actors b).record = (w.actors b).record) :
    Option.Rel w.Undisturbed (w.own? b) (w'.own? b) := by
  have hother := fun t => h.own_ne (b := a) (a := b) (t := t) hs
  have hedit := hfates.own hs hrecord
  generalize w.own? b = own at hedit hother
  generalize w'.own? b = own' at hedit
  cases hedit with
  | none => exact .none
  | some hedit => exact .some (hedit.undisturbed (hother _ rfl (Ne.symm hb)))

/-- A thread starts to run only by a step of its own actor. -/
theorem Edit.runs {t t' : ThreadRecord} (h : Edit w a task t t') (hrun : t'.state = .runnable) :
    t.state = .runnable ∨ w.own? a = some t ∧ (task = .enterSwap t.word ∨ task = .wake) := by
  cases h with
  | spared _ hspares _ => exact .inl (hspares.state.symm.trans hrun)
  | left _ _ => cases hrun
  | entered hown htask => exact .inr ⟨hown, .inl htask⟩
  | @set s hown htask =>
      have hs : s = .runnable := hrun
      exact .inr ⟨hown, .inr (by rw [htask, hs]; rfl)⟩
  | _ => exact .inl hrun

/-- Who is on the way in is not there yet. -/
theorem Manned.coming (h : w.Manned) {name : String}
    (hagenda : (w.actors a).agenda = .enlist name :: rest) :
    rest = [] ∧ (w.actors a).attached = false := by
  cases h.stage a with
  | within hstays => cases hstays (.enlist name) (by rw [hagenda]; exact List.mem_cons_self)
  | coming hagenda' hattached =>
      rw [hagenda] at hagenda'
      cases hagenda'
      exact ⟨rfl, hattached⟩
  | departing hagenda' _ => rw [hagenda] at hagenda'; cases hagenda'
  | going tasks hagenda' hstays _ =>
      rw [hagenda] at hagenda'
      cases tasks with
      | nil => cases hagenda'
      | cons task tasks =>
          cases hagenda'
          cases hstays _ List.mem_cons_self
  | ended hagenda' _ _ => rw [hagenda] at hagenda'; cases hagenda'

/-- Who is about to leave the list has terminated. -/
theorem Manned.going (h : w.Manned) (hagenda : (w.actors a).agenda = .unlist :: rest) :
    rest = [] ∧ ∀ t, w.own? a = some t → t.state = .terminated := by
  cases h.stage a with
  | within hstays => cases hstays .unlist (by rw [hagenda]; exact List.mem_cons_self)
  | coming hagenda' _ => rw [hagenda] at hagenda'; cases hagenda'
  | departing hagenda' _ => rw [hagenda] at hagenda'; cases hagenda'
  | going tasks hagenda' hstays _ =>
      rw [hagenda] at hagenda'
      cases tasks with
      | nil => cases hagenda'
      | cons task tasks =>
          cases hagenda'
          cases hstays _ List.mem_cons_self
  | ended hagenda' _ hstate =>
      rw [hagenda] at hagenda'
      cases hagenda'
      exact ⟨rfl, hstate⟩

/-- An actor that has gone can neither swap its word nor wake. -/
theorem Manned.attached_of_runs (h : w.Manned) (hagenda : (w.actors a).agenda = task :: rest)
    {t : ThreadRecord} (hown : w.own? a = some t)
    (htask : task = .enterSwap t.word ∨ task = .wake) :
    (w.actors a).attached = true := by
  cases hattached : (w.actors a).attached with
  | true => rfl
  | false =>
      have hgone := h.gone hattached hown
      rcases htask with rfl | rfl
      · have hfaithful := h.faithful a _ (by rw [hagenda]; exact List.mem_cons_self)
        exact absurd (by simpa [Task.isFaithful, ThreadRecord.state] using hfaithful) hgone.native
      · exact absurd (by rw [hagenda]; rfl) hgone.asleep

end Step

-- ========================================================== every step

section Kept

variable {w w' : World} {a b : Nat} {task : Task} {rest : List Task}

theorem Manned.owner_step (h : w.Manned) (hs : w.Sound) (hstep : w.step? a = some w')
    (hfates : w.Fates a task w') (hpresence : Presence w a task w') {id : Nat} {t' : ThreadRecord}
    (hrecord : (w'.actors b).record = some id) (hrec : w'.records id = some t') : t'.owner = b := by
  have hsame : (w.actors b).record = some id → t'.owner = b := by
    intro hrecord₀
    obtain ⟨t, hrec₀⟩ := Option.isSome_iff_exists.mp (hs.ledger.owned hrecord₀)
    obtain ⟨t'', hrec'', hedit⟩ := hfates.edit hrec₀
    rw [hrec] at hrec''
    cases hrec''
    exact hedit.owner.trans (h.owner hrecord₀ hrec₀)
  by_cases hb : b = a
  · subst hb
    cases hpresence with
    | same _ hkept _ => exact hsame (hkept ▸ hrecord)
    | went _ _ hkept _ => exact hsame (hkept ▸ hrecord)
    | came _ _ hnew _ =>
        rw [hnew] at hrecord
        cases hrecord
        have hfate := hfates (w.created + 1)
        rw [hrec] at hfate
        cases hold : w.records (w.created + 1) with
        | none =>
            rw [hold] at hfate
            cases hfate with
            | came _ _ hborn => exact hborn.owner
        | some t =>
            have := (hs.ledger.numbered hold).2
            omega
  · rw [step?_other hs hstep hb] at hrecord
    exact hsame hrecord

theorem Manned.listed_step (h : w.Manned) (hs : w.Sound) (hstep : w.step? a = some w')
    (hpresence : Presence w a task w') (hattached : (w'.actors b).attached = true) :
    ∃ id ∈ w'.listed, (w'.actors b).record = some id := by
  by_cases hb : b = a
  · subst hb
    cases hpresence with
    | same hlisted hrecord hkept =>
        rw [hlisted, hrecord]
        exact h.listed (hkept ▸ hattached)
    | came _ hlisted hrecord _ =>
        refine ⟨w.created + 1, ?_, hrecord⟩
        rw [hlisted]
        exact List.mem_append_right _ List.mem_cons_self
    | went _ _ _ hgone => rw [hgone] at hattached; cases hattached
  · rw [step?_other hs hstep hb] at hattached ⊢
    obtain ⟨id, hmem, hrecord⟩ := h.listed hattached
    refine ⟨id, ?_, hrecord⟩
    cases hpresence with
    | same hlisted _ _ => rwa [hlisted]
    | came _ hlisted _ _ => rw [hlisted]; exact List.mem_append_left _ hmem
    | went _ hlisted _ _ =>
        refine (hlisted id).mpr ⟨hmem, fun hrecord' => hb ?_⟩
        obtain ⟨t, hrec⟩ := Option.isSome_iff_exists.mp (hs.ledger.owned hrecord)
        exact (h.owner hrecord hrec).symm.trans (h.owner hrecord' hrec)

theorem Manned.running_step (h : w.Manned) (hs : w.Sound) (hstep : w.step? a = some w')
    (hagenda : (w.actors a).agenda = task :: rest) (hfates : w.Fates a task w')
    (hpresence : Presence w a task w') {id : Nat} {t' : ThreadRecord}
    (hrec : w'.records id = some t') (hrun : t'.state = .runnable) :
    (w'.actors t'.owner).record = some id ∧ (w'.actors t'.owner).attached = true := by
  have hfate := hfates id
  rw [hrec] at hfate
  cases hold : w.records id with
  | none =>
      rw [hold] at hfate
      cases hfate with
      | came _ _ hborn => rw [hborn.state] at hrun; cases hrun
  | some t =>
      rw [hold] at hfate
      cases hfate with
      | edited hedit =>
          have hid : t.id = id := hs.ledger.toNumbered hold
          rw [hedit.owner]
          rcases hedit.runs hrun with hrunning | ⟨hown, htask⟩
          · -- it ran before: its actor can neither come nor go now
            obtain ⟨hrecord, hattached⟩ := h.running hold hrunning
            by_cases hb : t.owner = a
            · rw [hb] at hrecord hattached ⊢
              cases hpresence with
              | same _ hkept hkept' => exact ⟨hkept.trans hrecord, hkept'.trans hattached⟩
              | came htask _ _ _ =>
                  rw [htask] at hagenda
                  rw [(h.coming hagenda).2] at hattached
                  cases hattached
              | went htask _ _ _ =>
                  rw [htask] at hagenda
                  have hown : w.own? a = some t := by unfold own?; rw [hrecord]; exact hold
                  have hended := (h.going hagenda).2 t hown
                  rw [hrunning] at hended
                  cases hended
            · rw [step?_other hs hstep hb]
              exact ⟨hrecord, hattached⟩
          · obtain ⟨hrecord, hrec₀⟩ := own?_spec hs.ledger.toNumbered hown
            have hb : t.owner = a := h.owner hrecord hrec₀
            have hattached := h.attached_of_runs hagenda hown htask
            rw [hb]
            cases hpresence with
            | same _ hkept hkept' => exact ⟨by rw [hkept, hrecord, hid], hkept'.trans hattached⟩
            | came henlist _ _ _ => rcases htask with rfl | rfl <;> cases henlist
            | went hunlist _ _ _ => rcases htask with rfl | rfl <;> cases hunlist

theorem Manned.stage_step (h : w.Manned) (hs : w.Sound)
    (hagenda : (w.actors a).agenda = task :: rest)
    (hfates : w.Fates a task w') (hpresence : Presence w a task w')
    (hleads : w.Leads a task rest (w'.actors a).agenda) : (w'.actors a).Stage (w'.own? a) := by
  obtain hdropped | ⟨tasks, hfollows, hnext⟩ := hleads
  · exact .within (by rw [hdropped]; nofun)
  have hkept : task.stays = true → (w'.actors a).record = (w.actors a).record
      ∧ (w'.actors a).attached = (w.actors a).attached := by
    intro hstays
    cases hpresence with
    | same _ hrecord hattached => exact ⟨hrecord, hattached⟩
    | came htask _ _ _ => rw [htask] at hstays; cases hstays
    | went htask _ _ _ => rw [htask] at hstays; cases hstays
  have hwithin : task ≠ .depart → (∀ next ∈ rest, next.stays) →
      (w'.actors a).Stage (w'.own? a) := by
    intro hdepart hrest
    refine .within fun next hmem => ?_
    rw [hnext] at hmem
    exact (List.mem_append.mp hmem).elim (hfollows.stays hdepart next) (hrest next)
  cases h.stage a with
  | within hstays =>
      rw [hagenda] at hstays
      refine hwithin ?_ fun next hmem => hstays next (List.mem_cons_of_mem _ hmem)
      rintro rfl
      cases hstays _ List.mem_cons_self
  | coming hagenda' _ =>
      rw [hagenda] at hagenda'
      cases hagenda'
      exact hwithin nofun nofun
  | ended hagenda' _ _ =>
      rw [hagenda] at hagenda'
      cases hagenda'
      exact hwithin nofun nofun
  | departing hagenda' hattached =>
      rw [hagenda] at hagenda'
      cases hagenda'
      have hattached' : (w'.actors a).attached = true := by
        cases hpresence with
        | same _ _ hkept => exact hkept.trans hattached
        | came htask _ _ _ => cases htask
        | went htask _ _ _ => cases htask
      rw [List.append_nil] at hnext
      cases hfollows with
      | nothing _ => exact .within (by rw [hnext]; nofun)
      | @departRunning sp =>
          exact .going [.publishFrame sp false, .leave] hnext (by simp [Task.stays]) hattached'
      | departStopped => exact .going [] hnext nofun hattached'
  | going before hagenda' hbefore hattached =>
      rw [hagenda] at hagenda'
      cases before with
      | nil =>
          -- the state is set, and stays so until the actor leaves the list
          cases hagenda'
          obtain ⟨hrecord, hattached'⟩ := hkept rfl
          have hown' := hfates.own hs hrecord
          cases hfollows with
          | nothing _ =>
              refine .ended hnext (hattached'.trans hattached) fun t' ht' => ?_
              rw [ht'] at hown'
              generalize hown : w.own? a = own at hown'
              cases hown' with
              | some hedit => exact hedit.setState hown
      | cons task before =>
          cases hagenda'
          have hstays := hbefore task List.mem_cons_self
          have hdepart : task ≠ .depart := by rintro rfl; cases hstays
          refine .going (tasks ++ before) (by rw [hnext, List.append_assoc]; rfl) ?_
            ((hkept hstays).2.trans hattached)
          intro next hmem
          rcases List.mem_append.mp hmem with hmem | hmem
          · exact hfollows.stays hdepart next hmem
          · exact hbefore next (List.mem_cons_of_mem _ hmem)

theorem Manned.parks_step (h : w.Manned) (hs : w.Sound)
    (hagenda : (w.actors a).agenda = task :: rest)
    (hfates : w.Fates a task w') (hpresence : Presence w a task w')
    (hleads : w.Leads a task rest (w'.actors a).agenda) :
    Task.parks ((w'.own? a).all (·.isStopped)) (w'.actors a).agenda = true := by
  obtain hdropped | ⟨tasks, hfollows, hnext⟩ := hleads
  · rw [hdropped]
    rfl
  have hparks := h.parks a
  rw [hagenda] at hparks
  rw [hnext]
  cases hpresence with
  | same _ hrecord _ => exact hfollows.parks (hfates.own hs hrecord) hparks
  | went _ _ hrecord _ => exact hfollows.parks (hfates.own hs hrecord) hparks
  | came htask _ _ _ =>
      cases htask
      rw [(h.coming hagenda).1, List.append_nil]
      cases hfollows with
      | nothing _ => rfl
      | came => rfl

theorem Edit.suspend {t t' : ThreadRecord} (h : Edit w a task t t') (hout : t.id ∉ w.listed) :
    t'.word.suspend = t.word.suspend := by
  cases h with
  | spared _ _ hflag => exact hflag hout
  | _ => rfl

theorem Manned.gone_state (h : w.Manned) (hagenda : (w.actors a).agenda = task :: rest)
    {t t' : ThreadRecord} (hgone : w.Gone a t) (hedit : Edit w a task t t') :
    t'.state ≠ .native ∧ t'.state ≠ .runnable := by
  have hfaithful := h.faithful a task (by rw [hagenda]; exact List.mem_cons_self)
  cases hedit with
  | spared _ hspares _ =>
      rw [hspares.state]
      exact ⟨hgone.native, hgone.runnable⟩
  | left _ htask =>
      subst htask
      exact absurd (by simpa [Task.isFaithful, ThreadRecord.state] using hfaithful) hgone.runnable
  | entered _ htask =>
      subst htask
      exact absurd (by simpa [Task.isFaithful, ThreadRecord.state] using hfaithful) hgone.native
  | set _ htask =>
      subst htask
      refine ⟨?_, ?_⟩
      · simpa [Task.isFaithful, ThreadRecord.setState, ThreadRecord.state] using hfaithful
      · rintro rfl
        exact hgone.asleep (by rw [hagenda]; rfl)
  | _ => exact ⟨hgone.native, hgone.runnable⟩

/-- Nothing that is left of an actor comes back. -/
theorem Manned.gone_step (h : w.Manned) (hs : w.Sound) (hstep : w.step? a = some w')
    (hagenda : (w.actors a).agenda = task :: rest) (hfates : w.Fates a task w')
    (hpresence : Presence w a task w') (hleads : w.Leads a task rest (w'.actors a).agenda)
    {t' : ThreadRecord} (hattached : (w'.actors a).attached = false) (hown' : w'.own? a = some t') :
    w'.Gone a t' := by
  cases hpresence with
  | came _ _ _ hcame => rw [hcame] at hattached; cases hattached
  | went htask hlisted hrecord _ =>
      cases htask
      obtain ⟨rfl, hended⟩ := h.going hagenda
      have hedit := hfates.own hs hrecord
      generalize hown : w.own? a = own at hedit
      rw [hown'] at hedit
      cases hedit with
      | some hedit =>
          have hstate := (hedit.state rfl).trans (hended _ hown)
          have hagenda' : (w'.actors a).agenda = [] := by
            obtain hdropped | ⟨tasks, hfollows, hnext⟩ := hleads
            · exact hdropped
            · cases hfollows with
              | nothing _ => exact hnext
          refine ⟨fun hmem => ?_, by rw [hstate]; nofun, by rw [hstate]; nofun,
            by rw [hagenda']; nofun, by rw [hagenda']; nofun⟩
          rw [hedit.id] at hmem
          exact ((hlisted _).mp hmem).2 (own?_spec hs.ledger.toNumbered hown).1
  | same hlisted hrecord hkept =>
      have hedit := hfates.own hs hrecord
      generalize hown : w.own? a = own at hedit
      rw [hown'] at hedit
      cases hedit with
      | @some t _ hedit =>
          have hgone := h.gone (hkept ▸ hattached) hown
          have hflag := hedit.suspend hgone.unlisted
          have hstate := h.gone_state hagenda hgone hedit
          have hrequest : .wake ∈ (w'.actors a).agenda → t'.word.suspend = true := by
            intro hwake
            rw [hflag]
            refine hleads.forall (P := fun next => next = .wake → t.word.suspend = true)
              (fun hfollows next hmem hnext => ?_) (fun next hmem hnext => ?_) .wake hwake rfl
            · obtain ⟨t₀, hown₀, hflag₀⟩ := hfollows.wakes (hnext ▸ hmem)
              rw [hown] at hown₀
              cases hown₀
              exact hflag₀
            · exact hgone.request (by rw [hagenda, ← hnext]; exact List.mem_cons_of_mem _ hmem)
          refine ⟨by rw [hedit.id, hlisted]; exact hgone.unlisted, hstate.1, hstate.2, ?_, hrequest⟩
          -- whoever is past its wait has seen no request
          intro hhead
          have hquiet := (step?_wakes hs hstep hhead).2 t hown
          rw [← hflag, hrequest (List.mem_of_head? hhead)] at hquiet
          cases hquiet

/-- Others move: an actor's stage, its waits and what is left of it hang on
its record's state and request alone. -/
theorem Manned.bystander (h : w.Manned) (hactor : w'.actors b = w.actors b)
    (hrecord : Option.Rel w.Undisturbed (w.own? b) (w'.own? b))
    (hlisted : ∀ t, w.own? b = some t → t.id ∉ w.listed → t.id ∉ w'.listed) :
    (w'.actors b).Stage (w'.own? b)
      ∧ Task.parks ((w'.own? b).all (·.isStopped)) (w'.actors b).agenda = true
      ∧ ∀ {t'}, (w'.actors b).attached = false → w'.own? b = some t' → w'.Gone b t' := by
  have hstage := h.stage b
  have hparks := h.parks b
  have hgone := fun {t} => h.gone (b := b) (t := t)
  generalize w.own? b = own at hrecord hstage hparks hgone hlisted
  generalize w'.own? b = own' at hrecord
  rw [hactor]
  cases hrecord with
  | none => exact ⟨hstage, hparks, nofun⟩
  | @some t t' hrecord =>
      refine ⟨?_, ?_, ?_⟩
      · cases hstage with
        | within hstays => exact .within hstays
        | coming hagenda hattached => exact .coming hagenda hattached
        | departing hagenda hattached => exact .departing hagenda hattached
        | going tasks hagenda hstays hattached => exact .going tasks hagenda hstays hattached
        | ended hagenda hattached hended =>
            refine .ended hagenda hattached fun t₀ ht₀ => ?_
            cases ht₀
            exact hrecord.state.trans (hended t rfl)
      · simpa only [Option.all_some, ThreadRecord.isStopped, hrecord.state] using hparks
      · rintro t₀ hattached ⟨⟩
        have hgone := hgone hattached rfl
        constructor
        case unlisted => rw [hrecord.id]; exact hlisted t rfl hgone.unlisted
        case native => rw [hrecord.state]; exact hgone.native
        case runnable => rw [hrecord.state]; exact hgone.runnable
        case asleep => rw [hactor]; exact hgone.asleep
        case request => rw [hactor, hrecord.flag hgone.unlisted]; exact hgone.request

/-- Who is not listed does not get listed by somebody else's step. -/
theorem Presence.unlisted (h : Presence w a task w') (hs : w.Sound) {t : ThreadRecord}
    (hown : w.own? b = some t) (hout : t.id ∉ w.listed) : t.id ∉ w'.listed := by
  intro hmem
  cases h with
  | same hlisted _ _ => exact hout (hlisted ▸ hmem)
  | went _ hlisted _ _ => exact hout ((hlisted t.id).mp hmem).1
  | came _ hlisted _ _ =>
      rw [hlisted] at hmem
      rcases List.mem_append.mp hmem with hmem | hmem
      · exact hout hmem
      · have hle := (hs.ledger.numbered (own?_spec hs.ledger.toNumbered hown).2).2
        rw [List.mem_singleton.mp hmem] at hle
        omega

theorem Manned.step (h : w.Manned) (hs : w.Sound) (hstep : w.step? a = some w') : w'.Manned := by
  obtain ⟨task, rest, hagenda, hfates, hleads⟩ := step?_cases hs hstep
  have hpresence := step?_presence hs hstep hagenda
  have hbystander := fun {b} (hb : b ≠ a) =>
    have hactor := step?_other hs hstep hb
    have hrecord := h.undisturbed hs hfates hb (by rw [hactor])
    h.bystander hactor hrecord fun t hown => hpresence.unlisted hs hown
  constructor
  case owner => exact fun hrecord hrec => h.owner_step hs hstep hfates hpresence hrecord hrec
  case listed => exact fun hattached => h.listed_step hs hstep hpresence hattached
  case running => exact fun hrec hrun => h.running_step hs hstep hagenda hfates hpresence hrec hrun
  case faithful =>
    intro b
    by_cases hb : b = a
    · rw [hb]
      refine hleads.forall (fun hfollows => hfollows.faithful) fun next hmem => ?_
      exact h.faithful a next (by rw [hagenda]; exact List.mem_cons_of_mem _ hmem)
    · rw [step?_other hs hstep hb]
      exact h.faithful b
  case stage =>
    intro b
    by_cases hb : b = a
    · rw [hb]
      exact h.stage_step hs hagenda hfates hpresence hleads
    · exact (hbystander hb).1
  case parks =>
    intro b
    by_cases hb : b = a
    · rw [hb]
      exact h.parks_step hs hagenda hfates hpresence hleads
    · exact (hbystander hb).2.1
  case gone =>
    intro b t' hattached hown'
    by_cases hb : b = a
    · rw [hb] at hattached hown' ⊢
      exact h.gone_step hs hstep hagenda hfates hpresence hleads hattached hown'
    · exact (hbystander hb).2.2 hattached hown'

end Kept

-- ========================================================== every move

section Move

variable {w w' : World} {a : Nat} {m : Move}

/-- Only who is not there comes, and only who is there goes. -/
theorem move?_start_ready {c : Command} (h : w.move? (.start a c) = some w') :
    (∀ name, c = .attach name → (w.actors a).current = none)
      ∧ (c = .detach → (w.actors a).current ≠ none) := by
  simp only [move?] at h
  split at h
  · simp only [World.start] at h
    split at h
    · cases h
    · cases h
    · next hcome hgo =>
        constructor
        · rintro name rfl
          cases hcurrent : (w.actors a).current with
          | none => rfl
          | some id => exact (hcome name id rfl hcurrent).elim
        · rintro rfl hcurrent
          exact hgo rfl hcurrent
  · cases h

/-- Commands are faithful, wake nobody and wait for no resume. -/
theorem command_tasks (c : Command) :
    ∀ task ∈ c.agenda, task.isFaithful ∧ task ≠ .wake ∧ task ≠ .awaitResume := by
  cases c with
  | flip marking => cases marking <;> simp [Command.agenda, Task.isFaithful, Task.wake]
  | _ => simp [Command.agenda, Task.isFaithful, Task.wake]

theorem command_stays (c : Command) (hcome : ∀ name, c ≠ .attach name) (hgo : c ≠ .detach) :
    ∀ task ∈ c.agenda, task.stays := by
  cases c with
  | attach name => exact absurd rfl (hcome name)
  | detach => exact absurd rfl hgo
  | flip marking => cases marking <;> simp [Command.agenda, Task.stays]
  | _ => simp [Command.agenda, Task.stays]

/-- The stage of an actor that sets out on a command. -/
theorem Manned.stage_start (h : w.Manned) {c : Command} (hmove : w.move? (.start a c) = some w')
    {x : Actor} (hagenda : x.agenda = c.agenda) (hattached : x.attached = (w.actors a).attached)
    (own : Option ThreadRecord) : x.Stage own := by
  obtain ⟨hcome, hgo⟩ := move?_start_ready hmove
  by_cases hin : ∃ name, c = .attach name
  · obtain ⟨name, rfl⟩ := hin
    refine .coming hagenda ?_
    have hcurrent := hcome name rfl
    rw [hattached]
    cases hthere : (w.actors a).attached with
    | false => rfl
    | true =>
        obtain ⟨id, -, hrecord⟩ := h.listed hthere
        simp [Actor.current, hthere, hrecord] at hcurrent
  · by_cases hout : c = .detach
    · subst hout
      refine .departing hagenda ?_
      have hcurrent := hgo rfl
      rw [hattached]
      cases hthere : (w.actors a).attached with
      | true => rfl
      | false => simp [Actor.current, hthere] at hcurrent
    · refine .within ?_
      rw [hagenda]
      exact command_stays c (fun name hc => hin ⟨name, hc⟩) hout

theorem Manned.start (h : w.Manned) {c : Command} (hmove : w.move? (.start a c) = some w') :
    w'.Manned := by
  have hstage := fun {x} => h.stage_start (x := x) hmove
  obtain ⟨-, -, hw'⟩ := move?_start hmove
  have hactors : ∀ b, (w'.actors b).record = (w.actors b).record
      ∧ (w'.actors b).attached = (w.actors b).attached
      ∧ (b ≠ a → w'.actors b = w.actors b) ∧ (b = a → (w'.actors b).agenda = c.agenda) := by
    intro b
    rw [hw', setActor_actors]
    split
    · next hb => rw [hb]; exact ⟨rfl, rfl, fun hne => absurd rfl hne, fun _ => rfl⟩
    · next hb => exact ⟨rfl, rfl, fun _ => rfl, fun heq => absurd heq hb⟩
  have hrecords : w'.records = w.records := by rw [hw']; rfl
  have hlisted : w'.listed = w.listed := by rw [hw']; rfl
  have hown : ∀ b, w'.own? b = w.own? b := fun b => by
    unfold own?
    rw [hrecords, (hactors b).1]
  constructor
  case owner =>
    intro b id t hrecord hrec
    rw [(hactors b).1] at hrecord
    rw [hrecords] at hrec
    exact h.owner hrecord hrec
  case listed =>
    intro b hattached
    rw [(hactors b).2.1] at hattached
    rw [hlisted, (hactors b).1]
    exact h.listed hattached
  case running =>
    intro id t hrec hrun
    rw [hrecords] at hrec
    rw [(hactors t.owner).1, (hactors t.owner).2.1]
    exact h.running hrec hrun
  case faithful =>
    intro b
    by_cases hb : b = a
    · rw [(hactors b).2.2.2 hb]
      exact fun task hmem => (command_tasks c task hmem).1
    · rw [(hactors b).2.2.1 hb]
      exact h.faithful b
  case stage =>
    intro b
    by_cases hb : b = a
    · exact hstage ((hactors b).2.2.2 hb) (hb ▸ (hactors b).2.1) _
    · rw [(hactors b).2.2.1 hb, hown]
      exact h.stage b
  case parks =>
    intro b
    rw [hown]
    by_cases hb : b = a
    · rw [(hactors b).2.2.2 hb, ← List.append_nil c.agenda]
      exact parks_append _ (fun task hmem => (command_tasks c task hmem).2.2) rfl
    · rw [(hactors b).2.2.1 hb]
      exact h.parks b
  case gone =>
    intro b t hattached hown'
    rw [(hactors b).2.1] at hattached
    rw [hown] at hown'
    have hgone := h.gone hattached hown'
    refine ⟨by rw [hlisted]; exact hgone.unlisted, hgone.native, hgone.runnable, ?_, ?_⟩
    · by_cases hb : b = a
      · rw [(hactors b).2.2.2 hb]
        exact command_head c
      · rw [(hactors b).2.2.1 hb]
        exact hgone.asleep
    · by_cases hb : b = a
      · rw [(hactors b).2.2.2 hb]
        exact fun hmem => absurd rfl (command_tasks c _ hmem).2.1
      · rw [(hactors b).2.2.1 hb]
        exact hgone.request

/-- A request for work changes neither a thread's state nor its suspend
request. -/
theorem Manned.ask (h : w.Manned) (hs : w.Sound) (i : Nat) (c : Checkpoint) :
    (w.update i (·.requestCheckpoint c)).Manned := by
  have hrecords := update_records (f := (·.requestCheckpoint c)) hs.ledger.toNumbered
    (fun _ => rfl) i
  have hactors := update_actors w i (·.requestCheckpoint c)
  have hlisted : (w.update i (·.requestCheckpoint c)).listed = w.listed :=
    (mild_update (f := (·.requestCheckpoint c)) hs.ledger.toNumbered i
      fun _ => ⟨rfl, rfl, rfl⟩).listed
  have hback : ∀ {id t'}, (w.update i (·.requestCheckpoint c)).records id = some t' →
      ∃ t, w.records id = some t ∧ t'.owner = t.owner ∧ t'.state = t.state := by
    intro id t' hrec
    rw [hrecords] at hrec
    split at hrec
    · obtain ⟨t, hold, rfl⟩ := Option.map_eq_some_iff.mp hrec
      exact ⟨t, hold, rfl, rfl⟩
    · exact ⟨t', hrec, rfl, rfl⟩
  have hbystander := fun b => h.bystander (b := b) (congrFun hactors b)
    (by
      unfold own?
      rw [hactors]
      cases (w.actors b).record with
      | none => exact .none
      | some id =>
          rw [Option.bind_some, Option.bind_some, hrecords]
          cases w.records id with
          | none => split <;> exact .none
          | some t =>
              split
              · exact .some ⟨rfl, rfl, fun _ => rfl⟩
              · exact .some ⟨rfl, rfl, fun _ => rfl⟩)
    fun t _ hout => by rwa [hlisted]
  constructor
  case owner =>
    intro b id t' hrecord hrec
    obtain ⟨t, hold, howner, -⟩ := hback hrec
    rw [hactors] at hrecord
    exact howner.trans (h.owner hrecord hold)
  case listed =>
    intro b hattached
    rw [hactors] at hattached ⊢
    rw [hlisted]
    exact h.listed hattached
  case running =>
    intro id t' hrec hrun
    obtain ⟨t, hold, howner, hstate⟩ := hback hrec
    rw [hactors, howner]
    exact h.running hold (hstate ▸ hrun)
  case faithful => intro b; rw [hactors]; exact h.faithful b
  case stage => exact fun b => (hbystander b).1
  case parks => exact fun b => (hbystander b).2.1
  case gone => exact fun {b t} => (hbystander b).2.2

theorem Manned.move (h : w.Manned) (hs : w.Sound) (hmove : w.move? m = some w') : w'.Manned := by
  cases m with
  | step a => exact h.step hs hmove
  | start a c => exact h.start hmove
  | ask i c =>
      cases hmove
      exact h.ask hs i c
  | arm implicitChecks =>
      cases hmove
      exact ⟨h.owner, h.listed, h.running, h.faithful, h.stage, h.parks,
        fun hattached hown =>
          have hgone := h.gone hattached hown
          ⟨hgone.unlisted, hgone.native, hgone.runnable, hgone.asleep, hgone.request⟩⟩

/-- Whoever runs managed code is there, in every world that any order of
moves leads to. -/
theorem Reachable.manned (h : Reachable w) : w.Manned := by
  induction h with
  | fresh isa => exact manned_fresh isa
  | move m hreach hmove ih => exact ih.move hreach.sound hmove

end Move

end World

end Crossing
