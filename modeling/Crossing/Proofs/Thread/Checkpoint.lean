import Crossing.Proofs.Thread.Edit

/-
Checkpoints, from request to run. The requests made of a thread are read
off the moves themselves (`requests`), whoever makes them: another thread at
any moment, or a checkpoint that is being run. Against that list every
record is in order: what has run, what is taken up and what is queued, in
this order, are the requests made so far, and the request bit is set just
as long as something is queued.

A request can come between the look at the word and the swap. It changes
the word, so the swap of a word that was seen quiet succeeds only when
nothing is queued; that is what `Task.isCalm` carries from the look to the
swap.
-/
namespace Crossing

-- ========================================================== requests

namespace World

/-- The checkpoints that a move asks of the thread with number `id`. There
has to be such a thread. -/
def requested (w : World) (id : Nat) (m : Move) : List Checkpoint :=
  let ask (i : Nat) (c : Checkpoint) := if i = id ∧ (w.records id).isSome then [c] else []
  match m with
  | .ask i c => ask i c
  | .step a =>
      match (w.actors a).agenda with
      | .requestCheckpoint i c :: _ => ask i c
      | _ => []
  | _ => []

/-- The checkpoints that moves, one after the other, ask of a thread: the
first one first. -/
def requests (w : World) (id : Nat) : List Move → List Checkpoint
  | [] => []
  | m :: ms => w.requested id m ++ ((w.move? m).map (requests · id ms)).getD []

end World

-- =========================================================== records

/-- The record accounts for the requests made of its thread, and its word
shows whether any of them is still queued. -/
structure ThreadRecord.Accounts (t : ThreadRecord) (made : List Checkpoint) : Prop where
  order : t.ran ++ t.taken ++ t.queue = made
  flag : t.word.checkpoint = true ↔ t.queue ≠ []

namespace ThreadRecord.Accounts

variable {t t' : ThreadRecord} {made : List Checkpoint}

theorem spared (h : t.Accounts made) (hspares : t.Spares t') : t'.Accounts made where
  order := by rw [hspares.ran, hspares.taken, hspares.queue]; exact h.order
  flag := by rw [hspares.checkpoint, hspares.queue]; exact h.flag

theorem newborn {owner : Nat} (h : t.Newborn owner) : t.Accounts [] where
  order := by rw [h.ran, h.taken, h.queue]; rfl
  flag := by rw [h.checkpoint, h.queue]; simp

theorem request (h : t.Accounts made) (c : Checkpoint) :
    (t.requestCheckpoint c).Accounts (made ++ [c]) where
  order := by
    show t.ran ++ t.taken ++ (t.queue ++ [c]) = made ++ [c]
    rw [← List.append_assoc, h.order]
  flag := ⟨fun _ => by simp [requestCheckpoint], fun _ => rfl⟩

theorem take (h : t.Accounts made) : t.takeCheckpoints.Accounts made where
  order := by
    show t.ran ++ (t.taken ++ t.queue) ++ [] = made
    rw [List.append_nil, ← List.append_assoc, h.order]
  flag := by simp [takeCheckpoints]

theorem run (h : t.Accounts made) {c : Checkpoint} {rest : List Checkpoint}
    (htaken : t.taken = c :: rest) :
    ({ t with taken := rest, ran := t.ran ++ [c] } : ThreadRecord).Accounts made where
  order := by
    show t.ran ++ [c] ++ rest ++ t.queue = made
    rw [List.append_assoc t.ran [c] rest, List.singleton_append, ← htaken, h.order]
  flag := h.flag

theorem setState (h : t.Accounts made) (s : ThreadState) : (t.setState s).Accounts made :=
  ⟨h.order, h.flag⟩

/-- A swap that was prepared from a quiet word finds nothing queued. -/
theorem swap (h : t.Accounts made) {seen : StateWord} {s : ThreadState}
    (hseen : seen.checkpoint = false) (hswap : t.swapState? seen s = some t') : t.queue = [] := by
  unfold swapState? at hswap
  split at hswap
  · next hword =>
      have hquiet : t.word.checkpoint ≠ true := by rw [hword, hseen]; nofun
      exact Decidable.not_not.mp (mt h.flag.mpr hquiet)
  · cases hswap

end ThreadRecord.Accounts

/-- A swap of the word was prepared from one without a checkpoint
request. -/
def Task.isCalm : Task → Bool
  | leaveSwap seen | enterSwap seen => !seen.checkpoint
  | _ => true

namespace World

-- ========================================================== one step

/-- Every record accounts for the requests made of its thread, and every
swap that is due was prepared from a word without any. -/
structure Accounted (w : World) (made : Nat → List Checkpoint) : Prop where
  absent : ∀ {id}, w.records id = none → made id = []
  present : ∀ {id t}, w.records id = some t → t.Accounts (made id)
  calm : ∀ a, ∀ task ∈ (w.actors a).agenda, task.isCalm

section Step

variable {w w' : World} {made : Nat → List Checkpoint} {a : Nat} {task : Task}
  {tasks rest : List Task}

theorem accounted_fresh (isa : Isa) : ({ isa } : World).Accounted fun _ => [] where
  absent _ := rfl
  present := nofun
  calm _ := nofun

theorem requested_step (hagenda : (w.actors a).agenda = task :: rest) {id : Nat}
    (hasks : ∀ c, task ≠ .requestCheckpoint id c) : w.requested id (.step a) = [] := by
  simp only [requested, hagenda]
  cases task with
  | requestCheckpoint i c =>
      refine if_neg fun h => hasks c ?_
      rw [h.1]
  | _ => rfl

/-- A record accounts for one request more when the step was one, and for
the same requests when it was not. -/
theorem Edit.accounts {t t' : ThreadRecord} (h : Edit w a task t t')
    (hrec : w.records t.id = some t) (hagenda : (w.actors a).agenda = task :: rest)
    {made : List Checkpoint} (ht : t.Accounts made) :
    t'.Accounts (made ++ w.requested t.id (.step a)) := by
  have hnone : (∀ c, task ≠ .requestCheckpoint t.id c) →
      made ++ w.requested t.id (.step a) = made := fun hasks => by
    rw [requested_step hagenda hasks, List.append_nil]
  cases h with
  | @asked c htask =>
      have hone : w.requested t.id (.step a) = [c] := by
        simp only [requested, hagenda, htask]
        simp [hrec]
      rw [hone]
      exact ht.request c
  | spared hmisses hspares _ =>
      rw [hnone (by rintro c rfl; exact hmisses rfl)]
      exact ht.spared hspares
  | took _ htask =>
      rw [hnone (by rw [htask]; nofun)]
      exact ht.take
  | ran _ htask htaken =>
      rw [hnone (by rw [htask]; nofun)]
      exact ht.run htaken
  | left _ htask =>
      rw [hnone (by rw [htask]; nofun)]
      exact ht.setState .native
  | entered _ htask =>
      rw [hnone (by rw [htask]; nofun)]
      exact ht.setState .runnable
  | @set s _ htask =>
      rw [hnone (by rw [htask]; nofun)]
      exact ht.setState s

theorem Follows.calm (h : Follows w a task tasks) : ∀ next ∈ tasks, next.isCalm := by
  cases h with
  | leaveQuiet _ _ hquiet =>
      simp only [StateWord.isQuiet, Bool.and_eq_true] at hquiet
      simp [Task.isCalm, hquiet.2]
  | enterQuiet _ _ hcheckpoint => simp [Task.isCalm, hcheckpoint]
  | ran _ => simp [Task.isCalm, or_imp, forall_and]
  | flipped => simp [Task.isCalm]
  | _ => simp [Task.isCalm, serveCheckpoints, serveSuspension]

/-- The thread that is asked is there, or nothing is asked. -/
theorem requested_absent {id : Nat} (habsent : w.records id = none) (m : Move) :
    w.requested id m = [] := by
  have hno : ∀ i (c : Checkpoint), (if i = id ∧ (w.records id).isSome then [c] else []) = [] := by
    intro i c
    rw [habsent]
    exact if_neg fun h => by cases h.2
  cases m with
  | ask i c => exact hno i c
  | step b =>
      simp only [requested]
      split
      · exact hno _ _
      · rfl
  | _ => rfl

theorem Accounted.step (h : w.Accounted made) (hs : w.Sound) (hstep : w.step? a = some w') :
    w'.Accounted fun id => made id ++ w.requested id (.step a) := by
  obtain ⟨task, rest, hagenda, hfates, hnext⟩ := step?_cases hs hstep
  constructor
  case absent =>
    intro id hgone
    have hfate := hfates id
    rw [hgone] at hfate
    cases hold : w.records id with
    | none => rw [h.absent hold, requested_absent hold]; rfl
    | some t => rw [hold] at hfate; cases hfate
  case present =>
    intro id t' hrec
    have hfate := hfates id
    rw [hrec] at hfate
    cases hold : w.records id with
    | none =>
        rw [hold] at hfate
        cases hfate with
        | came _ _ hborn =>
            rw [h.absent hold, requested_absent hold]
            exact .newborn hborn
    | some t =>
        rw [hold] at hfate
        cases hfate with
        | edited hedit =>
            have hid : t.id = id := hs.ledger.toNumbered hold
            subst hid
            exact hedit.accounts hold hagenda (h.present hold)
  case calm =>
    intro b
    by_cases hb : b = a
    · rw [hb]
      refine hnext.forall (fun hfollows => hfollows.calm) fun next hmem => ?_
      exact h.calm a next (by rw [hagenda]; exact List.mem_cons_of_mem _ hmem)
    · rw [step?_other hs hstep hb]
      exact h.calm b

end Step

-- ========================================================= every run

section Run

variable {w w' : World} {made : Nat → List Checkpoint} {m : Move} {ms : List Move}

theorem Accounted.ask (h : w.Accounted made) (hs : w.Sound) (i : Nat) (c : Checkpoint) :
    (w.update i (·.requestCheckpoint c)).Accounted
      fun id => made id ++ w.requested id (.ask i c) := by
  have hrecords := update_records (f := (·.requestCheckpoint c)) hs.ledger.toNumbered
    (fun _ => rfl) i
  constructor
  case absent =>
    intro id hgone
    have hold : w.records id = none := by
      rw [hrecords] at hgone
      split at hgone
      · exact Option.map_eq_none_iff.mp hgone
      · exact hgone
    rw [h.absent hold, requested_absent hold]
    rfl
  case present =>
    intro id t' hrec
    rw [hrecords] at hrec
    by_cases hid : id = i
    · rw [if_pos hid] at hrec
      obtain ⟨t, hold, rfl⟩ := Option.map_eq_some_iff.mp hrec
      have hone : w.requested id (.ask i c) = [c] := if_pos ⟨hid.symm, by rw [hold]; rfl⟩
      rw [hone]
      exact (h.present hold).request c
    · rw [if_neg hid] at hrec
      have hnone : w.requested id (.ask i c) = [] := if_neg fun heq => hid heq.1.symm
      rw [hnone, List.append_nil]
      exact h.present hrec
  case calm =>
    intro b
    rw [update_actors]
    exact h.calm b

theorem Accounted.move (h : w.Accounted made) (hs : w.Sound) (hmove : w.move? m = some w') :
    w'.Accounted fun id => made id ++ w.requested id m := by
  cases m with
  | step a => exact h.step hs hmove
  | ask i c =>
      cases hmove
      exact h.ask hs i c
  | start a c =>
      obtain ⟨-, -, rfl⟩ := move?_start hmove
      simp only [requested, List.append_nil]
      refine ⟨h.absent, h.present, fun b => ?_⟩
      rw [setActor_actors]
      split
      · cases c with
        | flip marking => cases marking <;> simp [Command.agenda, Task.isCalm]
        | _ => simp [Command.agenda, Task.isCalm]
      · exact h.calm b
  | arm implicitChecks =>
      cases hmove
      simp only [requested, List.append_nil]
      exact ⟨h.absent, h.present, h.calm⟩

/-- The accounts are kept along any order of moves. -/
theorem Accounted.follow (h : w.Accounted made) (hs : w.Sound) (hrun : w.follow ms = some w') :
    w'.Accounted fun id => made id ++ w.requests id ms := by
  induction ms generalizing w made with
  | nil =>
      cases hrun
      simpa only [requests, List.append_nil] using h
  | cons m ms ih =>
      obtain ⟨w₁, hmove, hrest⟩ := Option.bind_eq_some_iff.mp hrun
      have h' := ih (h.move hs hmove) (hs.move hmove) hrest
      simpa only [requests, hmove, Option.map_some, Option.getD_some, List.append_assoc] using h'

end Run

-- ====================================================== checkpoints

/-- The request bit of the word that generated code reads. -/
theorem checkpointRequest_bit (word : StateWord) :
    word.bits &&& ThreadFlag.checkpointRequest ≠ 0 ↔ word.checkpoint = true := by
  obtain ⟨state, suspend, checkpoint⟩ := word
  cases state with
  | _ => cases suspend with
    | _ => cases checkpoint with
      | _ => decide

/-- The actor is about to swap the word of its thread `t`, on its way out of
managed code or back, and will succeed. -/
def AboutToSwap (w : World) (a : Nat) (t : ThreadRecord) : Prop :=
  w.own? a = some t ∧ ∃ seen rest,
    (w.actors a).agenda = .leaveSwap seen :: rest ∧ (t.swapState? seen .native).isSome
      ∨ (w.actors a).agenda = .enterSwap seen :: rest ∧ (t.swapState? seen .runnable).isSome

theorem Accounted.queue_of_swap {w : World} {made : Nat → List Checkpoint} {a : Nat}
    {t : ThreadRecord} (h : w.Accounted made) (hs : w.Sound) (hswap : w.AboutToSwap a t) :
    t.queue = [] := by
  obtain ⟨hown, seen, rest, ⟨hagenda, hsome⟩ | ⟨hagenda, hsome⟩⟩ := hswap
  · obtain ⟨t', ht'⟩ := Option.isSome_iff_exists.mp hsome
    have hcalm := h.calm a (.leaveSwap seen) (by rw [hagenda]; exact List.mem_cons_self)
    have hseen : seen.checkpoint = false := by simpa [Task.isCalm] using hcalm
    exact (h.present (own?_spec hs.ledger.toNumbered hown).2).swap hseen ht'
  · obtain ⟨t', ht'⟩ := Option.isSome_iff_exists.mp hsome
    have hcalm := h.calm a (.enterSwap seen) (by rw [hagenda]; exact List.mem_cons_self)
    have hseen : seen.checkpoint = false := by simpa [Task.isCalm] using hcalm
    exact (h.present (own?_spec hs.ledger.toNumbered hown).2).swap hseen ht'

/-- Checkpoints run once and in order, whatever the order of moves. What a
thread has run, then what it has taken up, then what is queued are the
checkpoints asked of it so far, in the order of the requests; its request
bit is set when, and only when, something is queued; and nothing is queued
at the moment when it swaps its word to leave or to enter managed code. -/
theorem follow_checkpoints_in_order {isa : Isa} {ms : List Move} {w : World}
    (hrun : follow { isa } ms = some w) :
    (∀ id t, w.records id = some t →
      t.ran ++ t.taken ++ t.queue = requests { isa } id ms
        ∧ (t.word.bits &&& ThreadFlag.checkpointRequest ≠ 0 ↔ t.queue ≠ []))
      ∧ ∀ a t, w.AboutToSwap a t → t.queue = [] := by
  have hs : w.Sound := ((Reachable.fresh isa).follow hrun).sound
  have h : w.Accounted (requests { isa } · ms) := by
    have h := (accounted_fresh isa).follow (sound_fresh isa) hrun
    simpa only [List.nil_append] using h
  refine ⟨fun id t hrec => ⟨(h.present hrec).order, ?_⟩, fun a t hswap => h.queue_of_swap hs hswap⟩
  rw [checkpointRequest_bit]
  exact (h.present hrec).flag

/-- A thread (actor 0) looks at its word to leave managed code. It is asked
for work before it can swap the word, and once more after the swap has
failed; the first checkpoint asks for another one while it is run. -/
def nestedRequest : List Move :=
  [.start 0 (.attach "worker"), .step 0, .step 0, .step 0, .step 0,
    .start 0 .leave, .step 0, .ask 1 (.log "outer" [.log "inner" []]), .step 0,
    .ask 1 (.log "late" []), .step 0, .step 0, .step 0, .step 0, .step 0]

/-- In the middle of it one checkpoint has run, one is taken up and one is
queued. -/
theorem checkpoints_in_order_nested : ∃ w t, follow { isa := .x86_64 } nestedRequest = some w
    ∧ w.records 1 = some t ∧ t.ran.map (·.tag) = ["outer"] ∧ t.taken.map (·.tag) = ["late"]
    ∧ t.queue.map (·.tag) = ["inner"]
    ∧ t.ran ++ t.taken ++ t.queue = requests { isa := .x86_64 } 1 nestedRequest
    ∧ t.word.bits &&& ThreadFlag.checkpointRequest ≠ 0 := by
  have hrun : follow { isa := .x86_64 } nestedRequest
      = some ((follow { isa := .x86_64 } nestedRequest).get rfl) := (Option.some_get _).symm
  obtain ⟨hrecords, -⟩ := follow_checkpoints_in_order hrun
  obtain ⟨horder, hflag⟩ := hrecords 1 _ rfl
  exact ⟨_, _, hrun, rfl, rfl, rfl, rfl, horder, hflag.mpr nofun⟩

end World

end Crossing
