import Crossing.Proofs.Thread.Flip
import Crossing.Proofs.Thread.Grip

/-
One operation after the other. An operation is any move out of rest, with
whatever it takes to come to rest again: its own steps, and what others do
meanwhile, such as passing a suspend point. Others may do anything but come
or start a flip of their own; what keeps a flip and a newcomer apart is
that each of the two is an operation, and is completed before the next
(`Sequential`).

In such a run nobody comes between the snapshot of a flip and its
publication, so every thread is in tune (`Tuned`) with the list all the
time, and at rest the list says what the collector says.
-/
namespace Crossing

-- ========================================================= operations

/-- Neither brings a thread nor turns marking on or off. -/
def Command.isBackground : Command → Bool
  | attach _ | flip _ => false
  | _ => true

/-- What others may do while an operation is under way. -/
def Move.isBackground : Move → Bool
  | start _ c => c.isBackground
  | _ => true

namespace World

/-- Nobody is in the middle of anything. -/
def AtRest (w : World) : Prop := ∀ a, w.isIdle a = true

/-- The worlds that operations lead to, each completed before the next, on
a list of the given instruction set. -/
inductive Orderly (isa : Isa) : World → Prop where
  | fresh : Orderly isa { isa }
  | operation {w w' : World} (m : Move) (ms : List Move) : Orderly isa w →
      (∀ m ∈ ms, m.isBackground) → w.follow (m :: ms) = some w' → w'.AtRest → Orderly isa w'

/-- All tasks that anybody has still to do have a property. -/
def Pending (w : World) (P : Task → Prop) : Prop := ∀ a, ∀ task ∈ (w.actors a).agenda, P task

/-- A property that tasks hand on to the tasks that follow them, and that
what goes on in the background has. -/
structure Inherited (P : Task → Prop) : Prop where
  follows : ∀ {w a task tasks}, Follows w a task tasks → P task → ∀ next ∈ tasks, P next
  command : ∀ {c : Command}, c.isBackground = true → ∀ task ∈ c.agenda, P task

section Pending

variable {w w' : World} {a : Nat} {m : Move} {P : Task → Prop}

theorem AtRest.pending (h : w.AtRest) (P : Task → Prop) : w.Pending P := by
  intro a task hmem
  rw [List.isEmpty_iff.mp (h a)] at hmem
  cases hmem

/-- Whoever sets out on a command has its tasks to do. -/
theorem Pending.start {c : Command} (h : w.Pending P) (hcommand : ∀ task ∈ c.agenda, P task)
    (hmove : w.move? (.start a c) = some w') : w'.Pending P := by
  obtain ⟨-, -, rfl⟩ := move?_start hmove
  intro b
  rw [setActor_actors]
  split
  · exact hcommand
  · exact h b

theorem Pending.move (h : w.Pending P) (hP : Inherited P) (hs : w.Sound) (hback : m.isBackground = true)
    (hmove : w.move? m = some w') : w'.Pending P := by
  cases m with
  | step a =>
      obtain ⟨task, rest, hagenda, -, hleads⟩ := step?_cases hs hmove
      have htasks := h a
      rw [hagenda] at htasks
      intro b
      by_cases hb : b = a
      · rw [hb]
        refine hleads.forall (fun hfollows => ?_) fun next hmem => ?_
        · exact hP.follows hfollows (htasks task List.mem_cons_self)
        · exact htasks next (List.mem_cons_of_mem _ hmem)
      · rw [step?_other hs hmove hb]
        exact h b
  | start a c => exact h.start (hP.command hback) hmove
  | ask i c =>
      cases hmove
      intro b
      rw [update_actors]
      exact h b
  | arm implicitChecks =>
      cases hmove
      exact h

theorem inherited_flipless : Inherited (fun task => task.flips = false) where
  follows hfollows htask := by
    cases hfollows with
    | flipped => cases htask
    | ran _ => simp [Task.flips, or_imp, forall_and]
    | _ => simp [Task.flips, serveCheckpoints, serveSuspension]
  command {c} hback := by
    cases c with
    | flip marking => cases hback
    | _ => simp [Command.agenda, Task.flips]

theorem inherited_comeless : Inherited (fun task => ∀ name, task ≠ .enlist name) where
  follows hfollows _ := by
    cases hfollows with
    | ran _ => simp [or_imp, forall_and]
    | flipped => simp
    | _ => simp [serveCheckpoints, serveSuspension]
  command {c} hback := by
    cases c with
    | attach name => cases hback
    | flip marking => cases hback
    | _ => simp [Command.agenda]

end Pending

-- ========================================================= sequential

/-- Nobody has a flip to do, or nobody is about to come. -/
def Sequential (w : World) : Prop :=
  w.Pending (fun task => task.flips = false) ∨ w.Pending (fun task => ∀ name, task ≠ .enlist name)

section Sequential

variable {w w' : World} {a : Nat} {m : Move}

/-- Out of rest any move is possible. -/
theorem AtRest.sequential (h : w.AtRest) (hs : w.Sound) (hmove : w.move? m = some w') :
    w'.Sequential := by
  by_cases hback : m.isBackground = true
  · exact .inl ((h.pending _).move inherited_flipless hs hback hmove)
  · cases m with
    | start a c =>
        cases c with
        | attach name =>
            exact .inl ((h.pending _).start (by simp [Command.agenda, Task.flips]) hmove)
        | flip marking =>
            refine .inr ((h.pending _).start ?_ hmove)
            cases marking <;> simp [Command.agenda]
        | _ => exact absurd rfl hback
    | _ => exact absurd rfl hback

theorem Sequential.move (h : w.Sequential) (hs : w.Sound) (hback : m.isBackground = true)
    (hmove : w.move? m = some w') : w'.Sequential :=
  h.imp (·.move inherited_flipless hs hback hmove) (·.move inherited_comeless hs hback hmove)

/-- Whoever comes finds no flip between its snapshot and its publication. -/
theorem Sequential.published (h : w.Sequential) {name : String} {rest : List Task}
    (hagenda : (w.actors a).agenda = .enlist name :: rest) : ¬ w.Unpublished := by
  rintro ⟨b, ids, marking, hstage, -⟩
  rcases h with hflipless | hcomeless
  · have hahead : w.stage b = .ahead := stage_of_due rfl (.of_flipless (hflipless b))
    rw [hahead] at hstage
    cases hstage
  · exact hcomeless a _ (by rw [hagenda]; exact List.mem_cons_self) name rfl

end Sequential

-- ============================================================ records

/-- All threads are in tune with the list and have the entrypoints their
instruction set comes with. -/
structure Concerted (w : World) (isa : Isa) : Prop where
  isa : w.isa = isa
  tuned : ∀ id, w.Tuned id
  fixed : ∀ {id t}, w.records id = some t → t.table.fixed = (EntrypointTable.ofIsa w.isa).fixed

section Concerted

variable {w w' : World} {a id : Nat} {m : Move} {before after : FlipStage}

theorem Turn.isa (h : Turn w a w' before after) : w'.isa = w.isa := by
  cases h with
  | calm hcalm _ _ => exact hcalm.isa
  | _ => rfl

/-- Fixed slots are never written. -/
theorem Turn.fixed (h : Turn w a w' before after)
    (hfixed : ∀ {id t}, w.records id = some t →
      t.table.fixed = (EntrypointTable.ofIsa w.isa).fixed)
    {t' : ThreadRecord} (hrec : w'.records id = some t') :
    t'.table.fixed = (EntrypointTable.ofIsa w'.isa).fixed := by
  rw [h.isa]
  cases h with
  | calm hcalm _ _ =>
      obtain ⟨t, hold, hsame⟩ := hcalm.back hrec
      rw [hsame.table]
      exact hfixed hold
  | @comes name x =>
      obtain ⟨t, hrecords, -, ht⟩ := enlist_newcomer w a name
      rw [setActor_records, hrecords] at hrec
      split at hrec
      · cases hrec
        exact ht
      · exact hfixed hrec
  | one _ hrecords =>
      have hrec := (hrecords id).symm.trans hrec
      split at hrec
      · obtain ⟨t, hold, rfl⟩ := Option.map_eq_some_iff.mp hrec
        show t.table.fixed = _
        exact hfixed hold
      · exact hfixed hrec
  | _ => exact hfixed hrec

/-- A thread that is new in the list has just come. -/
theorem move?_newcomer (hs : w.Sound) (hmove : w.move? m = some w') (hnew : w.created < id)
    (hlisted : id ∈ w'.listed) : ∃ a name rest, m = .step a
      ∧ (w.actors a).agenda = .enlist name :: rest ∧ id = w.created + 1 := by
  have hold : id ∉ w.listed := by
    intro hmem
    have := hs.ledger.id_le (hs.ledger.present hmem)
    omega
  cases m with
  | step a =>
      obtain ⟨task, rest, hagenda, -⟩ := step?_cases hs hmove
      cases step?_presence hs hmove hagenda with
      | same hkept _ _ => exact absurd (hkept ▸ hlisted) hold
      | went _ hkept _ _ => exact absurd ((hkept id).mp hlisted).1 hold
      | @came name htask hgrown _ _ =>
          rw [hgrown] at hlisted
          rcases List.mem_append.mp hlisted with hmem | hmem
          · exact absurd hmem hold
          · exact ⟨a, name, rest, rfl, htask ▸ hagenda, List.mem_singleton.mp hmem⟩
  | start a c =>
      obtain ⟨-, -, rfl⟩ := move?_start hmove
      exact absurd hlisted hold
  | ask i c =>
      cases hmove
      have hmild : w.Mild (w.update i (·.requestCheckpoint c)) :=
        mild_update hs.ledger.toNumbered i fun _ => ⟨rfl, rfl, rfl⟩
      exact absurd (hmild.listed ▸ hlisted) hold
  | arm implicitChecks =>
      cases hmove
      exact absurd hlisted hold

theorem Concerted.move {isa : Isa} (h : w.Concerted isa) (hreach : Reachable w)
    (hseq : w.Sequential) (hmove : w.move? m = some w') : w'.Concerted isa := by
  have hs := hreach.sound
  obtain ⟨a, -, -, hturn⟩ := move?_turn hs hreach.settled.due hmove
  refine ⟨hturn.isa.trans h.isa, fun id => ?_, hturn.fixed h.fixed⟩
  by_cases hid : id ≤ w.created
  · exact (h.tuned id).move hreach.settled hs hid hmove
  · intro hlisted
    obtain ⟨b, name, rest, rfl, hagenda, rfl⟩ := move?_newcomer hs hmove (by omega) hlisted
    exact tuned_of_comes hreach hagenda hmove (hseq.published hagenda) hlisted

/-- What others do in the course of an operation disturbs nothing. -/
theorem Concerted.follow {isa : Isa} {ms : List Move} (h : w.Concerted isa) (hreach : Reachable w)
    (hseq : w.Sequential) (hback : ∀ m ∈ ms, m.isBackground) (hrun : w.follow ms = some w') :
    w'.Concerted isa := by
  induction ms generalizing w with
  | nil =>
      cases hrun
      exact h
  | cons m ms ih =>
      obtain ⟨w₁, hmove, hrest⟩ := Option.bind_eq_some_iff.mp hrun
      have hfirst := hback m List.mem_cons_self
      refine ih (h.move hreach hseq hmove) (.move m hreach hmove)
        (hseq.move hreach.sound hfirst hmove) (fun m hmem => ?_) hrest
      exact hback m (List.mem_cons_of_mem _ hmem)

end Concerted

-- ============================================================ orderly

section Orderly

variable {w : World} {isa : Isa} {id : Nat}

/-- What one operation after the other keeps up. -/
theorem Orderly.kept (h : Orderly isa w) : Reachable w ∧ w.AtRest ∧ w.Concerted isa := by
  induction h with
  | fresh => exact ⟨.fresh isa, fun _ => rfl, rfl, nofun, nofun⟩
  | @operation w w' m ms _ hback hrun hrest ih =>
      obtain ⟨hreach, hidle, hconcerted⟩ := ih
      refine ⟨hreach.follow hrun, hrest, ?_⟩
      obtain ⟨w₁, hmove, hrun₁⟩ := Option.bind_eq_some_iff.mp hrun
      have hseq : w.Sequential := .inl (hidle.pending _)
      exact (hconcerted.move hreach hseq hmove).follow (.move m hreach hmove)
        (hidle.sequential hreach.sound hmove) hback hrun₁

/-- After every operation each listed thread shows what the collector says,
with its flag and with every mark slot; its fixed slots are those its
instruction set comes with; and it holds the mutator lock just if it runs
managed code. -/
theorem Orderly.agrees (h : Orderly isa w) (hlisted : id ∈ w.listed) :
    ∃ t, w.records id = some t ∧ t.Shows isa w.collector.marking
      ∧ (∀ e, t.table.fixed e = (EntrypointTable.ofIsa isa).fixed e)
      ∧ (t.heldLock = true ↔ t.state = .runnable) := by
  obtain ⟨hreach, hidle, hconcerted⟩ := h.kept
  have hflipping : ¬ w.Flipping := by
    rintro ⟨a, hstage⟩
    exact hstage (stage_of_due (List.isEmpty_iff.mp (hidle a)) .done)
  obtain ⟨t, hrec, hshows⟩ := (hconcerted.tuned id).shows hreach.settled hflipping hlisted
  have hfixed := hconcerted.fixed hrec
  rw [hconcerted.isa] at hshows hfixed
  exact ⟨t, hrec, hshows, congrFun hfixed, hreach.held_iff_running hlisted hrec hidle⟩

-- --------------------------------------- threads before and after a flip

/-- Actor 2, which is not attached, goes through with a flip; the thread of
actor 0 stops for it at a suspend point and goes on afterwards. -/
def flipPastRunning : List Move :=
  List.replicate 3 (.step 2) ++ .start 0 .checkSuspend :: List.replicate 3 (.step 0)
    ++ List.replicate 7 (.step 2) ++ List.replicate 4 (.step 0)

/-- Three actors that have nothing to do, and nobody else. -/
theorem atRest_of_three (h₀ : w.isIdle 0 = true) (h₁ : w.isIdle 1 = true) (h₂ : w.isIdle 2 = true)
    (h : ∀ a, w.isIdle (a + 3) = true) : w.AtRest
  | 0 => h₀
  | 1 => h₁
  | 2 => h₂
  | a + 3 => h a

/-- An operation that is seen to come to its end. -/
theorem Orderly.operate (h : Orderly isa w) (m : Move) (ms : List Move)
    (hback : ∀ m ∈ ms, m.isBackground) (hrun : (w.follow (m :: ms)).isSome)
    (hrest : ((w.follow (m :: ms)).get hrun).AtRest) :
    Orderly isa ((w.follow (m :: ms)).get hrun) :=
  h.operation m ms hback (Option.some_get hrun).symm hrest

/-- Both threads show that marking goes on: the one that stopped for the
flip and has left managed code since, and the one that came afterwards. -/
theorem agrees_while_marking : ∃ w, Orderly .riscv64 w ∧ w.listed = [1, 2]
    ∧ w.collector.marking = true ∧ ∀ id ∈ [1, 2],
      ∃ t, w.records id = some t ∧ t.Shows .riscv64 w.collector.marking
        ∧ (∀ e, t.table.fixed e = (EntrypointTable.ofIsa .riscv64).fixed e)
        ∧ (t.heldLock = true ↔ t.state = .runnable) := by
  have h₀ : Orderly .riscv64 { isa := .riscv64 } := .fresh
  have h₁ := h₀.operate (.start 0 (.attach "first")) (List.replicate 4 (.step 0))
    (by decide) rfl (atRest_of_three rfl rfl rfl fun _ => rfl)
  have h₂ := h₁.operate (.start 2 (.flip true)) flipPastRunning
    (by decide) rfl (atRest_of_three rfl rfl rfl fun _ => rfl)
  have h₃ := h₂.operate (.start 1 (.attach "second")) (List.replicate 4 (.step 1))
    (by decide) rfl (atRest_of_three rfl rfl rfl fun _ => rfl)
  have h₄ := h₃.operate (.start 0 (.toNative 0 false)) (List.replicate 4 (.step 0))
    (by decide) rfl (atRest_of_three rfl rfl rfl fun _ => rfl)
  exact ⟨_, h₄, rfl, rfl, fun id hid => h₄.agrees hid⟩

end Orderly

end World

end Crossing
