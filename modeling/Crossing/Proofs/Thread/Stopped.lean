import Crossing.Proofs.Thread.Suspension

/-
Who runs while the world is stopped. A thread starts to run in two ways. It
swaps its word, which fails once a request is there; or it has waited for a
resume and is woken, which nothing stops any more. So a thread that is
neither running nor past its wait stays stopped while its request stands
(`Stopped.move`), and whoever has a guard can rely on that as far as no
thread was past its wait when the guard was given out.

That condition is exact. A thread can be past its wait at that moment: it
was stopped by an earlier suspension, and its state still says so.
-/
namespace Crossing

namespace World

/-- The thread does not run and is not past its wait. -/
structure Stopped (w : World) (id : Nat) : Prop where
  parked : ∀ t, w.records id = some t → t.state ≠ .runnable
  asleep : ∀ b, (w.actors b).record = some id → (w.actors b).agenda.head? ≠ some .wake

-- =========================================================== one step

section Step

variable {w w' : World} {a b id : Nat}

/-- A guard is given up without a hitch. -/
theorem Sound.released_eq (hs : w.Sound) {g : SuspendGuard} {w₁ : World}
    (hguard : (w.actors a).guard = some g)
    (hreleased : (w.setActor a { w.actors a with guard := none }).releaseAll g.suspender = .ok w₁) :
    w₁ = (w.setActor a { w.actors a with guard := none }).letAllGo g.suspender := by
  rw [(hs.release_ok hguard).1] at hreleased
  exact (Except.ok.inj hreleased).symm

/-- A step is one actor's. -/
theorem step?_other (hs : w.Sound) (hstep : w.step? a = some w') (hb : b ≠ a) :
    w'.actors b = w.actors b := by
  obtain ⟨task, rest, hagenda, ⟨tasks, w₁, hdeed, rfl⟩ | ⟨v, w₁, hdeed, rfl⟩⟩ :=
    step?_deed hs.ledger.toNumbered hstep
  · rw [setActor_actors, if_neg hb]
    cases hdeed with
    | plain _ hplain => rw [hplain.actors]
    | request =>
        obtain ⟨records, hrecords⟩ := w.requestAll_frame a
        rw [hrecords]
    | released hguard hreleased =>
        obtain ⟨records, hrecords⟩ := letAllGo_frame _ _
        rw [hs.released_eq hguard hreleased, hrecords]
        exact if_neg hb
    | enlist => exact if_neg hb
    | unlist => exact if_neg hb
    | stopped _ => exact if_neg hb
    | _ => rfl
  · rw [setActor_actors, if_neg hb]
    cases hdeed with
    | refused _ => rfl
    | unreleased _ _ => exact if_neg hb

/-- A thread starts to run by a step of its own actor, which wakes it or
swaps its word. -/
theorem step?_runs (hs : w.Sound) (hstep : w.step? a = some w') (hid : (w.records id).isSome)
    {t' : ThreadRecord} (hrec : w'.records id = some t') (hrun : t'.state = .runnable) :
    ∃ t, w.records id = some t ∧ (t.state = .runnable ∨ (w.actors a).record = some id
      ∧ ∃ task rest, (w.actors a).agenda = task :: rest ∧ (task = .wake ∨ task = .enterSwap t.word)) := by
  obtain ⟨task, rest, hagenda, ⟨tasks, w₁, hdeed, rfl⟩ | ⟨v, w₁, hdeed, rfl⟩⟩ :=
    step?_deed hs.ledger.toNumbered hstep
  · rw [setActor_records] at hrec
    cases hdeed with
    | plain _ hplain =>
        obtain ⟨t, hold, hruns⟩ := hplain.runs hrec hrun
        exact ⟨t, hold, hruns.imp_right fun ⟨hrecord, htask⟩ => ⟨hrecord, task, rest, hagenda, htask⟩⟩
    | enlist =>
        obtain ⟨t, hrecords, -⟩ := enlist_records w a _
        have hle := hs.ledger.id_le hid
        rw [hrecords, if_neg (by omega)] at hrec
        exact ⟨t', hrec, .inl hrun⟩
    | request =>
        obtain ⟨t, hold, hstate⟩ := hs.ledger.requestAll_state hrec
        exact ⟨t, hold, .inl (hstate ▸ hrun)⟩
    | released hguard hreleased =>
        rw [hs.released_eq hguard hreleased] at hrec
        have hledger : (w.setActor a { w.actors a with guard := none }).Ledger w.inForce :=
          hs.ledger.setActor (fun id hid => hs.ledger.owned hid) nofun
        obtain ⟨t, hold, hstate⟩ := hledger.letAllGo_state hrec
        exact ⟨t, hold, .inl (hstate ▸ hrun)⟩
    | _ => exact ⟨t', hrec, .inl hrun⟩
  · rw [setActor_records] at hrec
    cases hdeed with
    | refused _ => exact ⟨t', hrec, .inl hrun⟩
    | unreleased _ _ => exact ⟨t', hrec, .inl hrun⟩

/-- An actor comes to the point of waking its thread only from a wait that
has ended. -/
theorem step?_wakes (hs : w.Sound) (hstep : w.step? a = some w')
    (hwake : (w'.actors a).agenda.head? = some .wake) :
    (w'.actors a).record = (w.actors a).record ∧ ∀ t, w.own? a = some t → t.word.suspend = false := by
  obtain ⟨p, htidy, -⟩ := hs.ordered a
  obtain ⟨task, rest, hagenda, ⟨tasks, w₁, hdeed, rfl⟩ | ⟨v, w₁, hdeed, rfl⟩⟩ :=
    step?_deed hs.ledger.toNumbered hstep
  · rw [setActor_actors, if_pos rfl] at hwake ⊢
    have hlast : tasks = [] → task ≠ .awaitResume → False := by
      rintro rfl hwait
      obtain ⟨q, -, hrest⟩ := htidy.next hagenda hwait
      exact hrest.head_ne_wake hwake
    cases hdeed with
    | plain hstops hplain =>
        obtain ⟨hp, hrest | ⟨hwait, -⟩⟩ := htidy.rests hagenda hstops
        · exact absurd hwake (hplain.ahead hp hrest).head_ne_wake
        · rw [hplain.actors]
          exact ⟨rfl, (hplain.waited hwait).2⟩
    | enlist => cases hwake
    | request => cases hwake
    | _ => exact (hlast rfl nofun).elim
  · rw [setActor_actors, if_pos rfl] at hwake
    cases hwake

/-- A thread that comes does not run yet. -/
theorem step?_lists (hs : w.Sound) (hstep : w.step? a = some w') (hmem : id ∈ w'.listed) :
    id ∈ w.listed ∨ w'.Stopped id := by
  have hother := fun {b} => step?_other (b := b) hs hstep
  obtain ⟨task, rest, hagenda, ⟨tasks, w₁, hdeed, rfl⟩ | ⟨v, w₁, hdeed, rfl⟩⟩ :=
    step?_deed hs.ledger.toNumbered hstep
  · rw [setActor_listed] at hmem
    cases hdeed with
    | plain _ hplain => exact .inl (hplain.mild.listed ▸ hmem)
    | enlist =>
        rcases List.mem_append.mp hmem with hmem | hmem
        · exact .inl hmem
        · rw [List.mem_singleton.mp hmem]
          refine .inr ⟨fun t' hrec => ?_, fun b hrecord => ?_⟩
          · obtain ⟨t, hrecords, -, hstate, -⟩ := enlist_records w a _
            rw [setActor_records, hrecords, if_pos rfl] at hrec
            cases hrec
            rw [hstate]
            nofun
          · by_cases hb : b = a
            · rw [hb, setActor_actors, if_pos rfl]
              nofun
            · rw [hother hb] at hrecord
              have hle := hs.ledger.id_le (hs.ledger.owned hrecord)
              omega
    | unlist => exact .inl (List.mem_filter.mp hmem).1
    | request =>
        obtain ⟨records, hrecords⟩ := w.requestAll_frame a
        rw [hrecords] at hmem
        exact .inl hmem
    | released hguard hreleased =>
        obtain ⟨records, hrecords⟩ := letAllGo_frame _ _
        rw [hs.released_eq hguard hreleased, hrecords] at hmem
        exact .inl hmem
    | _ => exact .inl hmem
  · rw [setActor_listed] at hmem
    cases hdeed with
    | refused _ => exact .inl hmem
    | unreleased _ _ => exact .inl hmem

/-- What is stopped and asked to stay so stays stopped, whoever takes a
step. -/
theorem Stopped.step (h : w.Stopped id) (hs : w.Sound) {t : ThreadRecord}
    (hrec : w.records id = some t) (hflag : t.word.suspend = true) (hstep : w.step? a = some w') :
    w'.Stopped id := by
  have hid : (w.records id).isSome := by rw [hrec]; rfl
  refine ⟨fun t' hrec' hrun => ?_, fun b hrecord hwake => ?_⟩
  · obtain ⟨t₀, hold, hrunning | ⟨hown, task, rest, hagenda, htask⟩⟩ := step?_runs hs hstep hid hrec' hrun
    · exact h.parked t₀ hold hrunning
    · rcases htask with rfl | rfl
      · exact h.asleep a hown (by rw [hagenda]; rfl)
      · -- the swap was prepared from a word without a request
        obtain ⟨p, htidy, -⟩ := hs.ordered a
        rcases htidy.agenda with hfits | ⟨rest', hwake, -⟩
        · rw [hagenda] at hfits
          cases hfits with
          | plain _ hplain _ =>
              rw [hrec] at hold
              cases hold
              simp [Task.isPlain, hflag] at hplain
        · rw [hagenda] at hwake
          cases hwake
  · by_cases hb : b = a
    · subst hb
      obtain ⟨hsame, hnone⟩ := step?_wakes hs hstep hwake
      rw [hsame] at hrecord
      have hquiet := hnone t (by unfold own?; rw [hrecord]; exact hrec)
      rw [hflag] at hquiet
      cases hquiet
    · rw [step?_other hs hstep hb] at hrecord hwake
      exact h.asleep b hrecord hwake

end Step

-- ========================================================== every move

section Move

variable {w w' : World} {a id : Nat} {m : Move} {suspender : Option Nat}

theorem command_head (c : Command) : c.agenda.head? ≠ some .wake := by
  cases c with
  | _ => nofun

theorem Stopped.move (h : w.Stopped id) (hs : w.Sound) {t : ThreadRecord}
    (hrec : w.records id = some t) (hflag : t.word.suspend = true) (hmove : w.move? m = some w') :
    w'.Stopped id := by
  cases m with
  | step a => exact h.step hs hrec hflag hmove
  | start a c =>
      obtain ⟨-, -, rfl⟩ := move?_start hmove
      refine ⟨h.parked, fun b hrecord => ?_⟩
      rw [setActor_actors] at hrecord ⊢
      split at hrecord
      · next hb =>
          rw [if_pos hb]
          exact command_head c
      · next hb =>
          rw [if_neg hb]
          exact h.asleep b hrecord
  | ask i c =>
      cases hmove
      refine ⟨fun t' hrec' => ?_, fun b hrecord => ?_⟩
      · rw [update_records (f := (·.requestCheckpoint c)) hs.ledger.toNumbered (fun _ => rfl), hrec] at hrec'
        split at hrec'
        · cases hrec'
          exact h.parked t hrec
        · cases hrec'
          exact h.parked t hrec
      · rw [update_actors] at hrecord ⊢
        exact h.asleep b hrecord
  | arm implicitChecks =>
      cases hmove
      exact ⟨h.parked, h.asleep⟩

/-- A thread that comes does not run yet. -/
theorem move?_lists (hs : w.Sound) (hmove : w.move? m = some w') (hmem : id ∈ w'.listed) :
    id ∈ w.listed ∨ w'.Stopped id := by
  cases m with
  | step a => exact step?_lists hs hmove hmem
  | start a c =>
      obtain ⟨-, -, rfl⟩ := move?_start hmove
      exact .inl hmem
  | ask i c =>
      cases hmove
      have hmild : w.Mild (w.update i (·.requestCheckpoint c)) :=
        mild_update hs.ledger.toNumbered i fun _ => ⟨rfl, rfl, rfl⟩
      exact .inl (hmild.listed ▸ hmem)
  | arm implicitChecks =>
      cases hmove
      exact .inl hmem

/-- While a suspension is in force, everybody else has a request. -/
theorem Sound.requested (hs : w.Sound) (hforce : w.inForce = some suspender) (hmem : id ∈ w.listed)
    (hother : suspender ≠ some id) : ∃ t, w.records id = some t ∧ t.word.suspend = true := by
  obtain ⟨t, hrec⟩ := Option.isSome_iff_exists.mp (hs.ledger.present hmem)
  have hcount := hs.ledger.count hmem hrec
  rw [hforce, requestsOn_some, if_neg hother] at hcount
  refine ⟨t, hrec, (hs.ledger.flag hrec).mpr ?_⟩
  rw [hcount]
  nofun

/-- A guard is in force while it is held. -/
theorem Sound.inForce_of_guard (hs : w.Sound) {g : SuspendGuard}
    (hguard : (w.actors a).guard = some g) : w.inForce = some g.suspender := by
  obtain ⟨p, htidy, hlock⟩ := hs.ordered a
  have hheld : p = .held := htidy.guard.mpr (by rw [hguard]; rfl)
  rw [inForce_of_lock (hlock.mpr (by rw [hheld]; nofun)), Actor.suspender?_of_guard hguard]

/-- Everybody else is stopped for as long as the suspension lasts. -/
def Quiet (w : World) (suspender : Option Nat) : Prop :=
  ∀ id ∈ w.listed, suspender ≠ some id → w.Stopped id

theorem Quiet.move (h : w.Quiet suspender) (hs : w.Sound) (hforce : w.inForce = some suspender)
    (hmove : w.move? m = some w') : w'.Quiet suspender := by
  intro id hmem hother
  rcases move?_lists hs hmove hmem with hold | hnew
  · obtain ⟨t, hrec, hflag⟩ := hs.requested hforce hold hother
    exact (h id hold hother).move hs hrec hflag hmove
  · exact hnew

end Move

-- ========================================================= latecomers

section Late

variable {w w' : World} {a : Nat} {m : Move} {targets : List Nat} {rest : List Task}

/-- Threads that come while an actor waits for everybody to stop are
stopped from the start. -/
def Late (w : World) : Prop :=
  ∀ {a targets rest}, (w.actors a).agenda = .awaitStopped targets :: rest →
    ∀ id ∈ w.listed, (w.actors a).current ≠ some id → id ∉ targets → w.Stopped id

theorem Sound.inForce_of_await (hs : w.Sound)
    (hagenda : (w.actors a).agenda = .awaitStopped targets :: rest) :
    w.inForce = some (w.actors a).current := by
  obtain ⟨p, htidy, hlock⟩ := hs.ordered a
  have hasked : p = .asked := (htidy.fits hagenda rfl).of_await.1
  have hguard := htidy.guard_eq_none (by rw [hasked]; nofun)
  rw [inForce_of_lock (hlock.mpr (by rw [hasked]; nofun)), Actor.suspender?_of_await hguard hagenda]

/-- An actor starts to wait for everybody it has asked. -/
theorem step?_asks (hs : w.Sound) (hstep : w.step? a = some w')
    (hagenda' : (w'.actors a).agenda = .awaitStopped targets :: rest) :
    (w'.actors a).current = (w.actors a).current ∧ w'.listed = w.listed
      ∧ targets = w.others (w.actors a).current := by
  obtain ⟨p, htidy, -⟩ := hs.ordered a
  obtain ⟨task, rest', hagenda, ⟨tasks, w₁, hdeed, rfl⟩ | ⟨v, w₁, hdeed, rfl⟩⟩ :=
    step?_deed hs.ledger.toNumbered hstep
  · rw [setActor_actors, if_pos rfl] at hagenda' ⊢
    have hlast : tasks = [] → task ≠ .awaitResume → False := by
      rintro rfl hwait
      obtain ⟨q, hq, hrest⟩ := htidy.next hagenda hwait
      rw [show rest' = _ from hagenda'] at hrest
      exact hq hrest.of_await.1
    cases hdeed with
    | plain hstops hplain =>
        obtain ⟨hp, hrest | ⟨hwait, rest'', rfl, -⟩⟩ := htidy.rests hagenda hstops
        · have hfits := hplain.ahead hp hrest
          rw [show tasks ++ rest' = _ from hagenda'] at hfits
          exact absurd hfits.of_await.1 hp.ne_asked
        · obtain ⟨rfl, -⟩ := hplain.waited hwait
          cases hagenda'
    | enlist => cases hagenda'
    | request =>
        obtain ⟨records, hrecords⟩ := w.requestAll_frame a
        cases hagenda'
        rw [hrecords]
        exact ⟨rfl, rfl, rfl⟩
    | _ => exact (hlast rfl nofun).elim
  · rw [setActor_actors, if_pos rfl] at hagenda'
    cases hagenda'

theorem Late.move (h : w.Late) (hs : w.Sound) (hmove : w.move? m = some w') : w'.Late := by
  intro a targets rest hagenda' id hmem hother hnew
  -- somebody else's move leaves the waiting actor as it is
  have hsame : w'.actors a = w.actors a → w'.Stopped id := by
    intro heq
    rw [heq] at hagenda' hother
    rcases move?_lists hs hmove hmem with hold | hcame
    · obtain ⟨t, hrec, hflag⟩ := hs.requested (hs.inForce_of_await hagenda') hold hother
      exact (h hagenda' id hold hother hnew).move hs hrec hflag hmove
    · exact hcame
  cases m with
  | step b =>
      by_cases hb : a = b
      · subst hb
        obtain ⟨hcurrent, hlisted, rfl⟩ := step?_asks hs hmove hagenda'
        rw [hcurrent] at hother
        rw [hlisted] at hmem
        exact absurd (mem_others.mpr ⟨hmem, hother⟩) hnew
      · exact hsame (step?_other hs hmove hb)
  | start b c =>
      obtain ⟨-, -, rfl⟩ := move?_start hmove
      by_cases hb : a = b
      · rw [setActor_actors, if_pos hb] at hagenda'
        cases c with
        | _ => cases hagenda'
      · exact hsame (if_neg hb)
  | ask i c =>
      cases hmove
      exact hsame (by rw [update_actors])
  | arm implicitChecks =>
      cases hmove
      exact hsame rfl

theorem Reachable.late (h : Reachable w) : w.Late := by
  induction h with
  | fresh isa => nofun
  | move m hreach hmove ih => exact ih.move hreach.sound hmove

/-- A guard is given out when everybody who was asked has stopped. -/
theorem step?_grants (hs : w.Sound) (hstep : w.step? a = some w') {g : SuspendGuard}
    (hbefore : (w.actors a).guard = none) (hguard : (w'.actors a).guard = some g) :
    ∃ rest, (w.actors a).agenda = .awaitStopped g.targets :: rest ∧ g.targets.all w.isStopped
      ∧ g.suspender = (w.actors a).current ∧ w'.listed = w.listed ∧ w'.records = w.records := by
  obtain ⟨task, rest, hagenda, ⟨tasks, w₁, hdeed, rfl⟩ | ⟨v, w₁, hdeed, rfl⟩⟩ :=
    step?_deed hs.ledger.toNumbered hstep
  · rw [setActor_actors, if_pos rfl] at hguard
    cases hdeed with
    | stopped hstopped =>
        rw [setActor_actors, if_pos rfl] at hguard
        cases hguard
        exact ⟨rest, hagenda, hstopped, rfl, rfl, rfl⟩
    | plain _ hplain => rw [hplain.actors, hbefore] at hguard; cases hguard
    | request =>
        obtain ⟨records, hrecords⟩ := w.requestAll_frame a
        rw [hrecords, hbefore] at hguard
        cases hguard
    | released hheld _ => rw [hbefore] at hheld; cases hheld
    | enlist => simp [World.enlist, hbefore] at hguard
    | unlist => simp [hbefore] at hguard
    | lock _ => rw [hbefore] at hguard; cases hguard
    | unguarded _ => rw [hbefore] at hguard; cases hguard
    | unlock => rw [hbefore] at hguard; cases hguard
  · rw [setActor_actors, if_pos rfl] at hguard
    cases hdeed with
    | refused _ => rw [hbefore] at hguard; cases hguard
    | unreleased hheld _ => rw [hbefore] at hheld; cases hheld

end Late

-- ========================================================== the guard

/-- What moves lead to while actor `a` keeps the guard `g`. -/
inductive Under (a : Nat) (g : SuspendGuard) : World → World → Prop where
  | here {w : World} : (w.actors a).guard = some g → Under a g w w
  | move {w w' w'' : World} (m : Move) : Under a g w w' → w'.move? m = some w'' →
      (w''.actors a).guard = some g → Under a g w w''

/-- The thread is past its wait for a resume and not yet set running. -/
def Waking (w : World) (id : Nat) : Prop :=
  ∃ b, (w.actors b).record = some id ∧ (w.actors b).agenda.head? = some .wake

section Guard

variable {w w₁ w₂ : World} {a b id : Nat} {g : SuspendGuard}

theorem isStopped_iff : w.isStopped id = true ↔ ∀ t, w.records id = some t → t.state ≠ .runnable := by
  unfold isStopped
  cases w.records id with
  | none => simp
  | some t => simp [ThreadRecord.isStopped]

/-- Nothing holds a thread back that is past its wait. -/
theorem step?_wake (hs : w.Sound) {t : ThreadRecord} (hrecord : (w.actors b).record = some id)
    (hrec : w.records id = some t) (hhead : (w.actors b).agenda.head? = some .wake) :
    ∃ w', w.step? b = some w' ∧ w'.isStopped id = false ∧ w'.listed = w.listed
      ∧ ∀ a, (w'.actors a).guard = (w.actors a).guard := by
  obtain ⟨rest, hagenda⟩ := List.head?_eq_some_iff.mp hhead
  have hown : w.own? b = some t := by
    unfold own?
    rw [hrecord]
    exact hrec
  have hid : t.id = id := hs.ledger.toNumbered hrec
  have hperform : w.perform b .wake = .next [] (w.setRecord (t.setState .runnable)) := by
    simp only [perform, Task.wake, hown, performOwn]
  refine ⟨(w.setRecord (t.setState .runnable)).setActor b { w.actors b with agenda := rest },
    ?_, ?_, rfl, fun a => ?_⟩
  · simp only [step?, hagenda, hperform, setRecord_actors, List.nil_append]
  · unfold isStopped
    rw [setActor_records, setRecord_records]
    show (if id = t.id then some (t.setState .runnable) else w.records id).all _ = false
    rw [if_pos hid.symm]
    rfl
  · rw [setActor_actors]
    split
    · next ha => rw [ha]
    · rfl

/-- While a guard is kept, everybody who was stopped for good stays so. -/
theorem Under.quiet (h : Under a g w₁ w₂) (hreach : Reachable w₁) (hquiet : w₁.Quiet g.suspender) :
    Reachable w₂ ∧ w₂.Quiet g.suspender ∧ (w₂.actors a).guard = some g := by
  induction h with
  | here hguard => exact ⟨hreach, hquiet, hguard⟩
  | move m _ hmove hguard' ih =>
      obtain ⟨hreach', hquiet', hguard⟩ := ih
      have hforce := hreach'.sound.inForce_of_guard hguard
      exact ⟨.move m hreach' hmove, hquiet'.move hreach'.sound hforce hmove, hguard'⟩

/-- When suspending comes back with a guard, everybody else is stopped for
good unless it is past its wait. -/
theorem quiet_of_grant (hreach : Reachable w) (hstep : w.step? a = some w₁)
    (hbefore : (w.actors a).guard = none) (hguard : (w₁.actors a).guard = some g)
    (hwaking : ∀ id ∈ w₁.listed, g.suspender ≠ some id → ¬ w₁.Waking id) :
    w₁.Quiet g.suspender := by
  intro id hmem hother
  obtain ⟨rest, hagenda, hstopped, hsuspender, hlisted, hrecords⟩ :=
    step?_grants hreach.sound hstep hbefore hguard
  refine ⟨?_, fun b hrecord hhead => hwaking id hmem hother ⟨b, hrecord, hhead⟩⟩
  rw [hrecords]
  by_cases hin : id ∈ g.targets
  · exact isStopped_iff.mp (List.all_eq_true.mp hstopped id hin)
  · rw [hlisted] at hmem
    rw [hsuspender] at hother
    exact (hreach.late hagenda id hmem hother hin).parked

/-- From the moment suspending comes back with a guard until the guard is
given up, no listed thread but the suspender runs, whatever the order of
moves: this holds if, and only if, none of them was past its wait for an
earlier resume at that moment. -/
theorem stopped_under_guard_iff (hreach : Reachable w) (hstep : w.step? a = some w₁)
    (hbefore : (w.actors a).guard = none) (hguard : (w₁.actors a).guard = some g) :
    (∀ w₂, Under a g w₁ w₂ → ∀ id ∈ w₂.listed, g.suspender ≠ some id → w₂.isStopped id)
      ↔ ∀ id ∈ w₁.listed, g.suspender ≠ some id → ¬ w₁.Waking id := by
  have hreach₁ : Reachable w₁ := .move (.step a) hreach hstep
  constructor
  · rintro hstopped id hmem hother ⟨b, hrecord, hhead⟩
    obtain ⟨t, hrec⟩ := Option.isSome_iff_exists.mp (hreach₁.sound.ledger.present hmem)
    obtain ⟨w₂, hstep₂, hruns, hlisted, hguards⟩ := step?_wake hreach₁.sound hrecord hrec hhead
    have hunder : Under a g w₁ w₂ := .move (.step b) (.here hguard) hstep₂ (by rw [hguards, hguard])
    have hstill := hstopped w₂ hunder id (hlisted ▸ hmem) hother
    rw [hruns] at hstill
    cases hstill
  · intro hwaking w₂ hunder id hmem hother
    have hquiet := quiet_of_grant hreach hstep hbefore hguard hwaking
    obtain ⟨-, hquiet₂, -⟩ := hunder.quiet hreach₁ hquiet
    exact isStopped_iff.mpr (hquiet₂ id hmem hother).parked

end Guard

-- ---------------------------------------------- a run through the window

/-- Performs moves one after the other. -/
def follow (w : World) : List Move → Option World
  | [] => some w
  | m :: ms => (w.move? m).bind (follow · ms)

theorem Reachable.follow {w w' : World} {ms : List Move} (h : Reachable w)
    (hrun : w.follow ms = some w') : Reachable w' := by
  induction ms generalizing w with
  | nil =>
      cases hrun
      exact h
  | cons m ms ih =>
      obtain ⟨w₁, hmove, hrest⟩ := Option.bind_eq_some_iff.mp hrun
      exact ih (.move m h hmove) hrest

/-- A thread (actor 0) comes and is asked to stop by an unattached actor
(actor 1); it suspends itself. -/
def firstSuspension : List Move :=
  [.start 0 (.attach "worker"), .step 0, .step 0, .step 0, .step 0,
    .start 1 .suspendAll, .step 1, .step 1,
    .start 0 .checkSuspend, .step 0, .step 0, .step 0]

/-- The guard is given out and given up, and the thread's wait ends. Before
the thread goes on, the other actor suspends everybody again. -/
def secondSuspension : List Move :=
  [.step 1, .start 1 .resumeAll, .step 1, .step 1, .step 0,
    .start 1 .suspendAll, .step 1, .step 1, .step 1]

/-- During the first suspension nobody is past a wait, and nobody runs. -/
theorem stopped_under_guard_first : ∃ w w₁ g, Reachable w ∧ w.step? 1 = some w₁
    ∧ (w.actors 1).guard = none ∧ (w₁.actors 1).guard = some g ∧ w₁.listed = [1] ∧ g = ⟨none, [1]⟩
    ∧ ∀ w₂, Under 1 g w₁ w₂ → ∀ id ∈ w₂.listed, g.suspender ≠ some id → w₂.isStopped id := by
  have hreach : Reachable ((follow { isa := .x86_64 } firstSuspension).get rfl) :=
    (Reachable.fresh .x86_64).follow (Option.some_get _).symm
  refine ⟨_, _, ⟨none, [1]⟩, hreach, rfl, rfl, rfl, rfl, rfl, ?_⟩
  refine (stopped_under_guard_iff hreach rfl rfl rfl).mpr ?_
  rintro id - - ⟨b, -, hhead⟩
  match b with
  | 0 => cases hhead
  | 1 => cases hhead
  | b + 2 => cases hhead

/-- It is not so that nobody else runs under every guard: a thread may
still be past its wait for the resume before. -/
theorem not_always_stopped : ¬ ∀ w, Reachable w → ∀ a g, (w.actors a).guard = some g →
    ∀ id ∈ w.listed, g.suspender ≠ some id → w.isStopped id := by
  intro hall
  have hreach : Reachable ((follow { isa := .x86_64 }
      (firstSuspension ++ secondSuspension ++ [.step 0])).get rfl) :=
    (Reachable.fresh .x86_64).follow (Option.some_get _).symm
  have hstopped := hall _ hreach 1 ⟨none, [1]⟩ rfl 1 (by decide) nofun
  cases hstopped

end World

end Crossing
