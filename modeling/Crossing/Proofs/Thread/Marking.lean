import Crossing.Proofs.Thread.Stopped

/-
What the marking state of threads hangs on. Four tasks belong to a flip:
the snapshot of the list, the update of each thread in it, and the two
stores that publish the new state, first to the list and then to the
collector. Every other task leaves all marking state alone (`perform_calm`),
apart from a thread that comes, which takes over what the list says.

`FlipDue` says how the tasks of a flip can stand in an agenda. From its
snapshot on a flip is the first thing on its actor's agenda and ends with
the release of a guard, so at most one actor is that far.
-/
namespace Crossing

-- ============================================================ records

/-- The flag and the mark slots say whether marking goes on: the usable
slots point at their routines or none does. -/
structure ThreadRecord.Shows (t : ThreadRecord) (isa : Isa) (marking : Bool) : Prop where
  flag : t.marking = marking
  slots : ∀ slot, t.table.marks slot
    = if marking && isa.usesMarkSlot slot then .mark (isa.markSlotRegister slot) else .null

/-- A flip sets the flag and the slots together, whatever they were. -/
theorem ThreadRecord.Shows.flip {t : ThreadRecord} {isa : Isa} {before : Bool}
    (h : t.Shows isa before) (marking : Bool) : (t.flip isa marking).Shows isa marking where
  flag := rfl
  slots slot := by
    simp only [ThreadRecord.flip, EntrypointTable.flipMarks]
    by_cases huses : isa.usesMarkSlot slot
    · cases marking with
      | true => simp [huses]
      | false => simp [huses]
    · simp [huses, h.slots]

theorem ThreadRecord.shows_fresh (id : Nat) (name : String) (isa : Isa) (owner : Nat) :
    (ThreadRecord.fresh id name isa owner).Shows isa false where
  flag := rfl
  slots _ := rfl

/-- A change of a record that leaves its marking state alone. -/
structure ThreadRecord.SameMarks (t t' : ThreadRecord) : Prop where
  flag : t'.marking = t.marking
  table : t'.table = t.table

theorem ThreadRecord.Shows.same {t t' : ThreadRecord} {isa : Isa} {marking : Bool}
    (h : t.Shows isa marking) (hsame : t.SameMarks t') : t'.Shows isa marking where
  flag := hsame.flag.trans h.flag
  slots slot := by
    rw [hsame.table]
    exact h.slots slot

namespace World

-- ======================================================== calm changes

/-- A change that leaves all marking state alone. -/
structure Calm (w w' : World) : Prop where
  isa : w'.isa = w.isa
  marking : w'.marking = w.marking
  collector : w'.collector.marking = w.collector.marking
  records : ∀ id, Option.Rel ThreadRecord.SameMarks (w.records id) (w'.records id)

section Calm

variable {w w' : World} {a id : Nat} {t t' : ThreadRecord} {f : ThreadRecord → ThreadRecord}

theorem rel_sameMarks_refl (o : Option ThreadRecord) : Option.Rel ThreadRecord.SameMarks o o := by
  cases o with
  | none => exact .none
  | some t => exact .some ⟨rfl, rfl⟩

/-- Everything but records, markings and the collector may change. -/
theorem calm_of_records (hisa : w'.isa = w.isa) (hmarking : w'.marking = w.marking)
    (hcollector : w'.collector.marking = w.collector.marking) (hrecords : w'.records = w.records) :
    w.Calm w' :=
  ⟨hisa, hmarking, hcollector, fun id => by rw [hrecords]; exact rel_sameMarks_refl _⟩

theorem Calm.refl (w : World) : w.Calm w := calm_of_records rfl rfl rfl rfl

theorem Calm.setActor (h : w.Calm w') (a : Nat) (x : Actor) : w.Calm (w'.setActor a x) :=
  ⟨h.isa, h.marking, h.collector, h.records⟩

theorem calm_setRecord (hrec : w.records t.id = some t) (hid : t'.id = t.id)
    (hsame : t.SameMarks t') : w.Calm (w.setRecord t') := by
  refine ⟨rfl, rfl, rfl, fun id => ?_⟩
  rw [setRecord_records, hid]
  by_cases heq : id = t.id
  · subst heq
    rw [if_pos rfl, hrec]
    exact .some hsame
  · rw [if_neg heq]
    exact rel_sameMarks_refl _

theorem calm_updateAll {ids : List Nat} (hnum : w.Numbered) (hnodup : ids.Nodup)
    (hid : ∀ t, (f t).id = t.id) (hsame : ∀ t : ThreadRecord, t.SameMarks (f t)) :
    w.Calm (w.updateAll ids f) := by
  have hrecords := updateAll_records hnum hid hnodup
  obtain ⟨records, heq⟩ := updateAll_eq w ids f
  rw [heq] at hrecords ⊢
  refine ⟨rfl, rfl, rfl, fun id => ?_⟩
  rw [hrecords]
  split
  · cases w.records id with
    | none => exact .none
    | some t => exact .some (hsame t)
  · exact rel_sameMarks_refl _

theorem calm_update (hnum : w.Numbered) (id : Nat) (hid : ∀ t, (f t).id = t.id)
    (hsame : ∀ t : ThreadRecord, t.SameMarks (f t)) : w.Calm (w.update id f) := by
  show w.Calm (w.updateAll [id] f)
  exact calm_updateAll hnum (by simp) hid hsame

/-- What a record shows afterwards it showed before. -/
theorem Calm.back (h : w.Calm w') (hrec : w'.records id = some t') :
    ∃ t, w.records id = some t ∧ t.SameMarks t' := by
  have hrel := h.records id
  rw [hrec] at hrel
  cases hold : w.records id with
  | none => rw [hold] at hrel; cases hrel
  | some t => rw [hold] at hrel; cases hrel with | some hsame => exact ⟨t, rfl, hsame⟩

end Calm

-- ============================================================== tasks

end World

/-- The tasks by which a flip changes what threads and collector say. -/
def Task.flips : Task → Bool
  | flipAll _ | flipOne _ _ | flipList _ | flipCollector _ => true
  | _ => false

/-- None of the tasks belongs to a flip. -/
def Flipless (tasks : List Task) : Prop := ∀ task ∈ tasks, task.flips = false

namespace World

/-- The outcome of a task that has no part in a flip. -/
def Progress.Calmly (w : World) : Progress → Prop
  | .blocked => True
  | .refused _ w' => w.Calm w'
  | .next tasks w' => w.Calm w' ∧ Flipless tasks

section Tasks

variable {w : World} {a : Nat} {t : ThreadRecord} {task : Task}

theorem performOwn_calm (hrec : w.records t.id = some t) (task : Task) :
    (w.performOwn t task).Calmly w := by
  have hsame : ∀ tasks : List Task, Flipless tasks → (Progress.next tasks w).Calmly w :=
    fun tasks htasks => ⟨.refl w, htasks⟩
  have hset : ∀ (tasks : List Task) (t' : ThreadRecord), t'.id = t.id → t.SameMarks t' →
      Flipless tasks → (Progress.next tasks (w.setRecord t')).Calmly w :=
    fun tasks t' hid hmarks htasks => ⟨calm_setRecord hrec hid hmarks, htasks⟩
  cases task with
  | leave =>
      simp only [performOwn]
      split
      · exact .refl w
      · split
        · exact hsame _ (by simp [Flipless, Task.flips])
        · exact hsame _ (by simp [Flipless, Task.flips])
  | leaveSwap seen =>
      simp only [performOwn, ThreadRecord.swapState?]
      split
      · next t' hswap =>
          split at hswap
          · cases hswap
            exact hset _ _ rfl ⟨rfl, rfl⟩ (by simp [Flipless, Task.flips])
          · cases hswap
      · exact hsame _ (by simp [Flipless, Task.flips])
  | enter =>
      simp only [performOwn]
      split
      · exact .refl w
      · split
        · exact hsame _ (by simp [Flipless, Task.flips])
        · split
          · exact hsame _ (by simp [Flipless, Task.flips, serveCheckpoints])
          · exact hsame _ (by simp [Flipless, Task.flips])
  | enterSwap seen =>
      simp only [performOwn, ThreadRecord.swapState?]
      split
      · next t' hswap =>
          split at hswap
          · cases hswap
            exact hset _ _ rfl ⟨rfl, rfl⟩ (by simp [Flipless, Task.flips])
          · cases hswap
      · exact hsame _ (by simp [Flipless, Task.flips])
  | poll =>
      simp only [performOwn]
      split
      · exact hsame _ (by simp [Flipless, Task.flips, serveCheckpoints])
      · split
        · exact hsame _ (by simp [Flipless, Task.flips, serveSuspension])
        · exact hsame _ (by simp [Flipless])
  | runCheckpoints =>
      simp only [performOwn]
      split
      · exact hsame _ (by simp [Flipless])
      · next c rest _ =>
          refine hset _ _ rfl ⟨rfl, rfl⟩ fun x hx => ?_
          rcases List.mem_append.mp hx with hx | hx
          · obtain ⟨c, -, rfl⟩ := List.mem_map.mp hx
            rfl
          · rw [List.mem_singleton.mp hx]
            rfl
  | awaitResume =>
      simp only [performOwn]
      split
      · trivial
      · exact hsame _ (by simp [Flipless])
  | depart =>
      simp only [performOwn]
      split
      · exact hsame _ (by simp [Flipless, Task.flips])
      · exact hsame _ (by simp [Flipless, Task.flips])
  | publishFrame sp tag => exact hset _ _ rfl ⟨rfl, rfl⟩ (by simp [Flipless])
  | dropLock => exact hset _ _ rfl ⟨rfl, rfl⟩ (by simp [Flipless])
  | takeLock => exact hset _ _ rfl ⟨rfl, rfl⟩ (by simp [Flipless])
  | takeCheckpoints => exact hset _ _ rfl ⟨rfl, rfl⟩ (by simp [Flipless])
  | setState s => exact hset _ _ rfl ⟨rfl, rfl⟩ (by simp [Flipless])
  | _ => exact hsame _ (by simp [Flipless])

theorem requestSuspend_sameMarks (t : ThreadRecord) (n : Nat) :
    t.SameMarks (t.requestSuspend n) := by
  unfold ThreadRecord.requestSuspend
  split
  · exact ⟨rfl, rfl⟩
  · exact ⟨rfl, rfl⟩

theorem ask_sameMarks (implicitChecks : Bool) (t : ThreadRecord) :
    t.SameMarks (ask implicitChecks t) := by
  cases implicitChecks with
  | true => exact ⟨rfl, rfl⟩
  | false => exact ⟨rfl, rfl⟩

/-- Nothing but a flip and a thread that comes changes marking state. -/
theorem perform_calm (hs : w.Sound) (hflips : task.flips = false)
    (hcomes : ∀ name, task ≠ .enlist name) : (w.perform a task).Calmly w := by
  have hnum : w.Numbered := hs.ledger.toNumbered
  have hothers : ∀ suspender, (w.others suspender).Nodup := fun suspender =>
    hs.ledger.distinct.sublist List.filter_sublist
  cases task with
  | requestCheckpoint id c =>
      exact ⟨calm_update hnum id (fun _ => rfl) fun _ => ⟨rfl, rfl⟩, nofun⟩
  | enlist name => exact absurd rfl (hcomes name)
  | unlist => exact ⟨calm_of_records rfl rfl rfl rfl, nofun⟩
  | lockSuspension =>
      simp only [perform]
      split
      · trivial
      · exact ⟨calm_of_records rfl rfl rfl rfl, nofun⟩
  | requestAll =>
      refine ⟨?_, by simp [Flipless, Task.flips]⟩
      rw [requestAll_eq]
      have hcalm := calm_updateAll (w := { w with suspendAllCount := w.suspendAllCount + 1 }) hnum
        (hothers (w.actors a).current) (ask_id w.implicitChecks) (ask_sameMarks w.implicitChecks)
      exact ⟨hcalm.isa, hcalm.marking, hcalm.collector, hcalm.records⟩
  | awaitStopped targets =>
      simp only [perform]
      split
      · exact ⟨calm_of_records rfl rfl rfl rfl, nofun⟩
      · trivial
  | releaseAll =>
      simp only [perform]
      split
      · exact ⟨.refl w, nofun⟩
      · next g hguard =>
          rw [(hs.release_ok hguard).1]
          have hcalm := calm_updateAll
            (w := { w.setActor a { w.actors a with guard := none } with
              suspendAllCount := w.suspendAllCount - 1 })
            hnum (hothers g.suspender) (f := letGo) (fun _ => rfl) fun _ => ⟨rfl, rfl⟩
          exact ⟨⟨hcalm.isa, hcalm.marking, hcalm.collector, hcalm.records⟩, nofun⟩
  | unlockSuspension => exact ⟨calm_of_records rfl rfl rfl rfl, nofun⟩
  | checkPhase marking =>
      simp only [perform]
      split
      · exact ⟨.refl w, nofun⟩
      · exact .refl w
  | flipAll _ => cases hflips
  | flipOne _ _ => cases hflips
  | flipList _ => cases hflips
  | flipCollector _ => cases hflips
  | bookCycle => exact ⟨calm_of_records rfl rfl rfl rfl, nofun⟩
  | _ =>
      simp only [perform]
      split
      · next t hown => exact performOwn_calm (own?_spec hnum hown).2 _
      · exact ⟨.refl w, nofun⟩

end Tasks

end World

-- ============================================================ agendas

/-- How far a flip is: there is none, or its snapshot is still to come;
some threads of its snapshot are still to be updated; all are, and only
the collector has not been told. -/
inductive FlipStage where
  | ahead
  | updating (ids : List Nat) (marking : Bool)
  | published (marking : Bool)
deriving DecidableEq

/-- How the tasks of a flip stand in an agenda at each stage. -/
inductive FlipDue : FlipStage → List Task → Prop where
  | done : FlipDue .ahead []
  | later {task : Task} {rest : List Task} : task.flips = false → FlipDue .ahead rest →
      FlipDue .ahead (task :: rest)
  | all {rest : List Task} {marking : Bool} : FlipDue (.updating [] marking) rest →
      FlipDue .ahead (.flipAll marking :: rest)
  | one {id : Nat} {ids : List Nat} {rest : List Task} {marking : Bool} : id ∉ ids →
      FlipDue (.updating ids marking) rest →
      FlipDue (.updating (id :: ids) marking) (.flipOne id marking :: rest)
  | list {rest : List Task} {marking : Bool} : FlipDue (.published marking) rest →
      FlipDue (.updating [] marking) (.flipList marking :: rest)
  | collector {rest : List Task} {marking : Bool} : Flipless rest →
      FlipDue (.published marking) (.flipCollector marking :: .releaseAll :: rest)

/-- The stage of the flip in an agenda. -/
def flipStage : List Task → FlipStage
  | .flipOne id _ :: rest =>
      match flipStage rest with
      | .updating ids marking => .updating (id :: ids) marking
      | stage => stage
  | .flipList marking :: _ => .updating [] marking
  | .flipCollector marking :: _ => .published marking
  | _ => .ahead

namespace FlipDue

variable {stage : FlipStage} {agenda tasks rest : List Task} {p : Phase}

theorem flipStage_eq (h : FlipDue stage agenda) : flipStage agenda = stage := by
  induction h with
  | @later task rest hflips _ _ =>
      cases task with
      | flipOne _ _ => cases hflips
      | flipList _ => cases hflips
      | flipCollector _ => cases hflips
      | _ => rfl
  | one _ _ ih => simp only [flipStage, ih]
  | _ => rfl

theorem append (htasks : Flipless tasks) (h : FlipDue .ahead rest) :
    FlipDue .ahead (tasks ++ rest) := by
  induction tasks with
  | nil => exact h
  | cons task tasks ih =>
      exact .later (htasks task List.mem_cons_self)
        (ih fun x hx => htasks x (List.mem_cons_of_mem task hx))

theorem of_flipless (h : Flipless tasks) : FlipDue .ahead tasks := by
  rw [← List.append_nil tasks]
  exact append h .done

/-- Every command has its flip, if any, ahead. -/
theorem command (c : Command) : FlipDue .ahead c.agenda := by
  cases c with
  | flip marking =>
      have hend : Flipless (.unlockSuspension :: if marking then [] else [.bookCycle]) := by
        cases marking with
        | true => simp [Flipless, Task.flips]
        | false => simp [Flipless, Task.flips]
      exact .later rfl (.later rfl (.later rfl (.all (.list (.collector hend)))))
  | _ => exact of_flipless (by simp [Flipless, Command.agenda, Task.flips])

/-- The snapshot puts an update of every thread in front. -/
theorem snapshot {ids : List Nat} {marking : Bool} (hnodup : ids.Nodup)
    (h : FlipDue (.updating [] marking) rest) :
    FlipDue (.updating ids marking) (ids.map (.flipOne · marking) ++ rest) := by
  induction ids with
  | nil => exact h
  | cons id ids ih =>
      obtain ⟨hid, hnodup⟩ := List.nodup_cons.mp hnodup
      exact .one hid (ih hnodup)

/-- A task that has no part in a flip finds it ahead and leaves it so. -/
theorem of_calm {task : Task} (h : FlipDue stage (task :: rest)) (hflips : task.flips = false) :
    stage = .ahead ∧ FlipDue .ahead rest := by
  cases h with
  | later _ hrest => exact ⟨rfl, hrest⟩
  | _ => cases hflips

/-- Past its snapshot a flip is the business of who has a guard. -/
theorem held (h : FlipDue stage agenda) (hstage : stage ≠ .ahead) (hfits : Fits p agenda) :
    p = .held := by
  induction h with
  | one _ _ ih =>
      cases hfits with
      | plain _ _ hrest => exact ih nofun hrest
  | list _ ih =>
      cases hfits with
      | plain _ _ hrest => exact ih nofun hrest
  | collector _ =>
      cases hfits with
      | plain _ _ hrest => exact hrest.of_release.1
  | _ => exact absurd rfl hstage

end FlipDue

end Crossing
