import Crossing.Proofs.Thread.Marking

/-
Who hears of a flip. A flip takes a snapshot of the list, updates the
threads in it one by one, and only then changes what the list hands to
threads that come. Nothing keeps threads from coming in between; one that
does is not in the snapshot and starts with the old state.

`Turn` says what a move does to marking state, by how far the flip of the
actor that moves is. Two facts are carried along every run. What the list
says, what the collector says and what each record's slots say agree up to
the flip that is under way (`Settled`), and a thread that agrees with the
list keeps up with every later flip (`Tuned`). Whether it agrees is decided
at the moment it comes: `hears_flips_iff`.
-/
namespace Crossing

namespace World

/-- How far an actor's flip is. -/
def stage (w : World) (a : Nat) : FlipStage := flipStage (w.actors a).agenda

/-- A flip has its snapshot of the list and has not told the collector. -/
def Flipping (w : World) : Prop := ∃ a, w.stage a ≠ .ahead

/-- A flip has its snapshot, and threads that come do not get the state it
is for. -/
def Unpublished (w : World) : Prop :=
  ∃ a ids marking, w.stage a = .updating ids marking ∧ w.marking ≠ marking

-- ============================================================== turns

/-- What a move can do to marking state, with the stages of the actor that
makes it before and after. -/
inductive Turn (w : World) (a : Nat) : World → FlipStage → FlipStage → Prop where
  | calm {w' : World} {stage : FlipStage} : w.Calm w' → w'.created = w.created →
      w'.listed ⊆ w.listed → Turn w a w' stage stage
  | comes {name : String} {x : Actor} :
      Turn w a ((w.enlist a name).setActor a x) .ahead .ahead
  | snapshot {marking : Bool} {x : Actor} :
      Turn w a (w.setActor a x) .ahead (.updating w.listed marking)
  | one {id : Nat} {ids : List Nat} {marking : Bool} {records : Nat → Option ThreadRecord}
      {x : Actor} : id ∉ ids →
      (∀ id', records id' =
        if id' = id then (w.records id').map (·.flip w.isa marking) else w.records id') →
      Turn w a (({ w with records } : World).setActor a x)
        (.updating (id :: ids) marking) (.updating ids marking)
  | list {marking : Bool} {x : Actor} :
      Turn w a (({ w with marking } : World).setActor a x) (.updating [] marking) (.published marking)
  | collector {marking : Bool} {x : Actor} :
      Turn w a (({ w with collector := { w.collector with marking } } : World).setActor a x)
        (.published marking) .ahead

section Turn

variable {w w' : World} {a b id : Nat} {task : Task} {rest : List Task}

theorem stage_eq_of_actors (h : w'.actors a = w.actors a) : w'.stage a = w.stage a := by
  unfold stage
  rw [h]

theorem stage_of_due {agenda : List Task} {stage : FlipStage}
    (hagenda : (w.actors a).agenda = agenda) (hdue : FlipDue stage agenda) : w.stage a = stage := by
  unfold World.stage
  rw [hagenda, hdue.flipStage_eq]

/-- Only a thread that comes makes the list longer. -/
theorem step?_listed (hs : w.Sound) (hstep : w.step? a = some w')
    (hagenda : (w.actors a).agenda = task :: rest) (hcomes : ∀ name, task ≠ .enlist name) :
    w'.created = w.created ∧ w'.listed ⊆ w.listed := by
  obtain ⟨task', rest', hagenda', ⟨tasks, w₁, hdeed, rfl⟩ | ⟨v, w₁, hdeed, rfl⟩⟩ :=
    step?_deed hs.ledger.toNumbered hstep
  · rw [hagenda] at hagenda'
    cases hagenda'
    rw [setActor_created, setActor_listed]
    cases hdeed with
    | plain _ hplain => exact ⟨hplain.mild.created, by rw [hplain.mild.listed]; exact List.Subset.refl _⟩
    | enlist => exact absurd rfl (hcomes _)
    | unlist => exact ⟨rfl, List.filter_sublist.subset⟩
    | request =>
        obtain ⟨records, hrecords⟩ := w.requestAll_frame a
        rw [hrecords]
        exact ⟨rfl, List.Subset.refl _⟩
    | released hguard hreleased =>
        obtain ⟨records, hrecords⟩ := letAllGo_frame _ _
        rw [hs.released_eq hguard hreleased, hrecords]
        exact ⟨rfl, List.Subset.refl _⟩
    | _ => exact ⟨rfl, List.Subset.refl _⟩
  · cases hdeed with
    | _ => exact ⟨rfl, List.Subset.refl _⟩

/-- A step of an actor whose flip, if any, is ahead or done, and which is
no thread that comes. -/
theorem step?_calm (hs : w.Sound) (hstep : w.step? a = some w')
    (hagenda : (w.actors a).agenda = task :: rest) (hdue : FlipDue .ahead (task :: rest))
    (hflips : task.flips = false) (hcomes : ∀ name, task ≠ .enlist name) :
    w.Calm w' ∧ FlipDue .ahead (w'.actors a).agenda := by
  have hcalm := perform_calm (a := a) hs hflips hcomes
  simp only [step?, hagenda] at hstep
  split at hstep
  · cases hstep
  · next v w₁ hperform =>
      cases hstep
      rw [hperform] at hcalm
      rw [setActor_actors, if_pos rfl]
      exact ⟨hcalm.setActor a _, .done⟩
  · next tasks w₁ hperform =>
      cases hstep
      rw [hperform] at hcalm
      rw [setActor_actors, if_pos rfl]
      exact ⟨hcalm.1.setActor a _, .append hcalm.2 (hdue.of_calm hflips).2⟩

/-- What a step does to marking state. -/
theorem step?_turn (hs : w.Sound) (hdue : FlipDue (w.stage a) (w.actors a).agenda)
    (hstep : w.step? a = some w') :
    ∃ stage, FlipDue stage (w'.actors a).agenda ∧ Turn w a w' (w.stage a) stage := by
  cases hagenda : (w.actors a).agenda with
  | nil =>
      simp only [step?, hagenda] at hstep
      cases hstep
  | cons task rest =>
      rw [hagenda] at hdue
      have hcalm : task.flips = false → (∀ name, task ≠ .enlist name) →
          ∃ stage, FlipDue stage (w'.actors a).agenda ∧ Turn w a w' (w.stage a) stage := by
        intro hflips hcomes
        have hahead := (hdue.of_calm hflips).1
        rw [hahead] at hdue ⊢
        obtain ⟨hworld, hdue'⟩ := step?_calm hs hstep hagenda hdue hflips hcomes
        obtain ⟨hcreated, hlisted⟩ := step?_listed hs hstep hagenda hcomes
        exact ⟨.ahead, hdue', .calm hworld hcreated hlisted⟩
      have hself : ∀ (w₁ : World) (x : Actor), (w₁.setActor a x).actors a = x := fun _ _ => if_pos rfl
      generalize w.stage a = stage at hdue hcalm ⊢
      cases task with
      | enlist name =>
          obtain ⟨rfl, hrest⟩ := hdue.of_calm rfl
          simp only [step?, hagenda, perform] at hstep
          cases hstep
          rw [hself]
          exact ⟨.ahead, .later rfl hrest, .comes⟩
      | flipAll marking =>
          cases hdue with
          | later hflips _ => cases hflips
          | all hrest =>
              simp only [step?, hagenda, perform] at hstep
              cases hstep
              rw [hself]
              exact ⟨_, .snapshot hs.ledger.distinct hrest, .snapshot⟩
      | flipOne id marking =>
          cases hdue with
          | later hflips _ => cases hflips
          | one hid hrest =>
              have hrecords := update_records (f := (·.flip w.isa marking)) hs.ledger.toNumbered
                (fun _ => rfl) id
              obtain ⟨records, hworld⟩ := updateAll_eq w [id] (·.flip w.isa marking)
              rw [show w.update id _ = _ from hworld] at hrecords
              simp only [step?, hagenda, perform] at hstep
              rw [show w.update id _ = _ from hworld] at hstep
              cases hstep
              rw [hself]
              exact ⟨_, hrest, .one hid hrecords⟩
      | flipList marking =>
          cases hdue with
          | later hflips _ => cases hflips
          | list hrest =>
              simp only [step?, hagenda, perform] at hstep
              cases hstep
              rw [hself]
              exact ⟨_, hrest, .list⟩
      | flipCollector marking =>
          cases hdue with
          | later hflips _ => cases hflips
          | collector hrest =>
              simp only [step?, hagenda, perform] at hstep
              cases hstep
              rw [hself]
              exact ⟨.ahead, .later rfl (.of_flipless hrest), .collector⟩
      | _ => exact hcalm rfl (by simp)

/-- What any move does to marking state: it is one actor's, and every other
actor's flip stays where it is. -/
theorem move?_turn {m : Move} (hs : w.Sound)
    (hdue : ∀ a, FlipDue (w.stage a) (w.actors a).agenda) (hmove : w.move? m = some w') :
    ∃ a, (∀ b ≠ a, w'.actors b = w.actors b) ∧ FlipDue (w'.stage a) (w'.actors a).agenda
      ∧ Turn w a w' (w.stage a) (w'.stage a) := by
  cases m with
  | step a =>
      obtain ⟨stage, hdue', hturn⟩ := step?_turn hs (hdue a) hmove
      refine ⟨a, fun b hb => step?_other hs hmove hb, ?_⟩
      rw [stage_of_due rfl hdue']
      exact ⟨hdue', hturn⟩
  | start a c =>
      obtain ⟨hidle, -, rfl⟩ := move?_start hmove
      refine ⟨a, fun b hb => if_neg hb, ?_⟩
      have hagenda : ((w.setActor a { w.actors a with agenda := c.agenda, refusal := none }).actors
          a).agenda = c.agenda := by
        rw [setActor_actors, if_pos rfl]
      rw [stage_of_due hagenda (.command c), stage_of_due hidle .done, hagenda]
      exact ⟨.command c, .calm ((Calm.refl w).setActor a _) rfl (List.Subset.refl _)⟩
  | ask id c =>
      cases hmove
      have hmild : w.Mild (w.update id (·.requestCheckpoint c)) :=
        mild_update hs.ledger.toNumbered id fun _ => ⟨rfl, rfl, rfl⟩
      have hcalm : w.Calm (w.update id (·.requestCheckpoint c)) :=
        calm_update hs.ledger.toNumbered id (fun _ => rfl) fun _ => ⟨rfl, rfl⟩
      refine ⟨0, fun b _ => by rw [update_actors], ?_⟩
      rw [stage_eq_of_actors (w := w) (by rw [update_actors]), update_actors]
      exact ⟨hdue 0, .calm hcalm hmild.created (by rw [hmild.listed]; exact List.Subset.refl _)⟩
  | arm implicitChecks =>
      cases hmove
      exact ⟨0, fun b _ => rfl, hdue 0,
        .calm (calm_of_records rfl rfl rfl rfl) rfl (List.Subset.refl _)⟩

/-- A flip that has its snapshot has the lock. -/
theorem lock_of_stage (hs : w.Sound) (hdue : FlipDue (w.stage a) (w.actors a).agenda)
    (hstage : w.stage a ≠ .ahead) : w.suspensionLock = some a := by
  obtain ⟨p, htidy, hlock⟩ := hs.ordered a
  refine hlock.mpr ?_
  rcases htidy.agenda with hfits | ⟨rest, hwake, -, -⟩
  · rw [hdue.held hstage hfits]
    nofun
  · rw [hwake] at hdue
    exact absurd (hdue.of_calm rfl).1 hstage

end Turn

-- ============================================================ settled

/-- What the list, the collector and the records say about marking, up to
the flip that is under way. -/
structure Settled (w : World) : Prop where
  due : ∀ a, FlipDue (w.stage a) (w.actors a).agenda
  past : ∀ {a ids marking}, w.stage a = .updating ids marking → ∀ id ∈ ids, id ≤ w.created
  shown : ∀ {id t}, w.records id = some t → t.Shows w.isa t.marking
  list : ∀ {a marking}, w.stage a = .published marking → w.marking = marking
  told : (∀ a marking, w.stage a ≠ .published marking) → w.collector.marking = w.marking

section Settled

variable {w w' : World} {a b id : Nat}

theorem settled_fresh (isa : Isa) : ({ isa } : World).Settled where
  due _ := .done
  past := nofun
  shown := nofun
  list := nofun
  told _ := rfl

/-- There is one flip at a time. -/
theorem Settled.alone (h : w.Settled) (hs : w.Sound) (ha : w.stage a ≠ .ahead) (hb : b ≠ a) :
    w.stage b = .ahead := by
  by_cases hstage : w.stage b = .ahead
  · exact hstage
  · have hholder := lock_of_stage hs (h.due b) hstage
    rw [lock_of_stage hs (h.due a) ha] at hholder
    exact absurd (Option.some.inj hholder).symm hb

/-- Once a flip is through with its threads, none is being updated. -/
theorem Settled.updated (h : w.Settled) (hs : w.Sound) {marking : Bool}
    (ha : w.stage a = .published marking) (b : Nat) (ids : List Nat) (marking' : Bool) :
    w.stage b ≠ .updating ids marking' := by
  intro hb
  by_cases hab : b = a
  · rw [hab, ha] at hb
    cases hb
  · rw [h.alone hs (by rw [ha]; nofun) hab] at hb
    cases hb

/-- A thread that comes takes over what the list says. -/
theorem enlist_shows (w : World) (a : Nat) (name : String) :
    ∃ t, t.Shows w.isa w.marking ∧ ∀ id, (w.enlist a name).records id
      = if id = w.created + 1 then some t else w.records id := by
  obtain ⟨t, hrecords, -⟩ := enlist_records w a name
  refine ⟨t, ?_, hrecords⟩
  let fresh := ThreadRecord.fresh (w.created + 1) name w.isa a
  let marked := if w.marking then fresh.flip w.isa true else fresh
  have hfresh : fresh.Shows w.isa false := ThreadRecord.shows_fresh _ _ _ _
  have hmarked : marked.Shows w.isa w.marking ∧ marked.id = w.created + 1 := by
    show (if w.marking then fresh.flip w.isa true else fresh).Shows w.isa w.marking
      ∧ (if w.marking then fresh.flip w.isa true else fresh).id = w.created + 1
    cases w.marking with
    | true => exact ⟨hfresh.flip true, rfl⟩
    | false => exact ⟨hfresh, rfl⟩
  have hid : (marked.requestSuspend w.suspendAllCount).id = w.created + 1 := by
    unfold ThreadRecord.requestSuspend
    split
    · exact hmarked.2
    · exact hmarked.2
  have hnew : (w.enlist a name).records (marked.requestSuspend w.suspendAllCount).id
      = some (marked.requestSuspend w.suspendAllCount) := if_pos rfl
  rw [hrecords, if_pos hid] at hnew
  cases hnew
  exact hmarked.1.same (requestSuspend_sameMarks _ _)

theorem Turn.created_le {before after : FlipStage} (h : Turn w a w' before after) :
    w.created ≤ w'.created := by
  cases h with
  | calm _ hcreated _ => exact Nat.le_of_eq hcreated.symm
  | comes => exact Nat.le_succ _
  | _ => exact Nat.le_refl _

/-- Flag and slots of a record change together. -/
theorem Turn.shown {before after : FlipStage} (h : Turn w a w' before after)
    (hshown : ∀ {id t}, w.records id = some t → t.Shows w.isa t.marking) {t' : ThreadRecord}
    (hrec : w'.records id = some t') : t'.Shows w'.isa t'.marking := by
  cases h with
  | calm hcalm _ _ =>
      obtain ⟨t, hold, hsame⟩ := hcalm.back hrec
      rw [hcalm.isa, hsame.flag]
      exact (hshown hold).same hsame
  | @comes name x =>
      obtain ⟨t, ht, hrecords⟩ := enlist_shows w a name
      rw [setActor_records, hrecords] at hrec
      split at hrec
      · cases hrec
        rw [ht.flag]
        exact ht
      · exact hshown hrec
  | one _ hrecords =>
      have hrec := (hrecords id).symm.trans hrec
      split at hrec
      · obtain ⟨t, hold, rfl⟩ := Option.map_eq_some_iff.mp hrec
        exact (hshown hold).flip _
      · exact hshown hrec
  | _ => exact hshown hrec

/-- The list changes its mind only for a flip whose threads are all
updated. -/
theorem Turn.marking_eq {before after : FlipStage} (h : Turn w a w' before after) :
    w'.marking = w.marking
      ∨ before = .updating [] w'.marking ∧ after = .published w'.marking := by
  cases h with
  | calm hcalm _ _ => exact .inl hcalm.marking
  | list => exact .inr ⟨rfl, rfl⟩
  | _ => exact .inl rfl

/-- The collector changes its mind only as the last part of a flip. -/
theorem Turn.collector_eq {before after : FlipStage} (h : Turn w a w' before after) :
    w'.collector.marking = w.collector.marking ∧ (∀ marking, before = .published marking → after = before)
      ∨ before = .published w'.collector.marking ∧ w'.marking = w.marking := by
  cases h with
  | calm hcalm _ _ => exact .inl ⟨hcalm.collector, fun _ _ => rfl⟩
  | collector => exact .inr ⟨rfl, rfl⟩
  | _ => exact .inl ⟨rfl, nofun⟩

/-- Every move keeps list, collector and records in agreement. -/
theorem Settled.move {m : Move} (h : w.Settled) (hs : w.Sound) (hmove : w.move? m = some w') :
    w'.Settled := by
  obtain ⟨a, hothers, hdue, hturn⟩ := move?_turn hs h.due hmove
  have hstage : ∀ b ≠ a, w'.stage b = w.stage b := fun b hb => stage_eq_of_actors (hothers b hb)
  constructor
  case due =>
    intro b
    by_cases hb : b = a
    · rw [hb]
      exact hdue
    · rw [hstage b hb, hothers b hb]
      exact h.due b
  case shown => exact hturn.shown h.shown
  case past =>
    intro b ids marking hupdating id hid
    apply Nat.le_trans ?_ hturn.created_le
    by_cases hb : b = a
    · subst hb
      rw [hupdating] at hturn
      generalize hbefore : w.stage b = before at hturn
      cases hturn with
      | calm _ _ _ => exact h.past hbefore id hid
      | snapshot => exact hs.ledger.id_le (hs.ledger.present hid)
      | one _ _ => exact h.past hbefore id (List.mem_cons_of_mem _ hid)
    · rw [hstage b hb] at hupdating
      exact h.past hupdating id hid
  case list =>
    intro b marking hpublished
    rcases hturn.marking_eq with hsame | ⟨hbefore, hafter⟩
    · rw [hsame]
      by_cases hb : b = a
      · subst hb
        rw [hpublished] at hturn
        generalize hbefore : w.stage b = before at hturn
        cases hturn with
        | calm _ _ _ => exact h.list hbefore
        | list => exact hsame.symm
      · rw [hstage b hb] at hpublished
        exact h.list hpublished
    · have hahead : b ≠ a → w.stage b = .ahead := h.alone hs (by rw [hbefore]; nofun)
      by_cases hb : b = a
      · rw [hb, hafter] at hpublished
        exact FlipStage.published.inj hpublished
      · rw [hstage b hb, hahead hb] at hpublished
        cases hpublished
  case told =>
    intro hnone
    rcases hturn.collector_eq with ⟨hsame, hbefore⟩ | ⟨hbefore, hsame⟩
    · rcases hturn.marking_eq with hmarking | ⟨-, hafter⟩
      · rw [hsame, hmarking]
        apply h.told
        intro b marking hpublished
        apply hnone b marking
        by_cases hb : b = a
        · subst hb
          rw [hbefore marking hpublished]
          exact hpublished
        · rw [hstage b hb]
          exact hpublished
      · exact absurd hafter (hnone a _)
    · rw [hsame]
      exact (h.list hbefore).symm

theorem Reachable.settled (h : Reachable w) : w.Settled := by
  induction h with
  | fresh isa => exact settled_fresh isa
  | move m hreach hmove ih => exact ih.move hreach.sound hmove

end Settled

-- ============================================================== tuned

/-- What a record says about marking is what the list says; while a flip
updates its snapshot, those that it is through with are ahead of the
list. -/
structure InTune (w : World) (id : Nat) (t : ThreadRecord) : Prop where
  amid : ∀ {a ids marking}, w.stage a = .updating ids marking →
    t.marking = if id ∈ ids then w.marking else marking
  apart : (∀ a ids marking, w.stage a ≠ .updating ids marking) → t.marking = w.marking

/-- The thread is in tune for as long as it is listed. -/
def Tuned (w : World) (id : Nat) : Prop :=
  id ∈ w.listed → ∃ t, w.records id = some t ∧ w.InTune id t

section Tuned

variable {w w' : World} {a b id : Nat} {t t' : ThreadRecord}

/-- The flip of one actor is under way, and no other. -/
theorem inTune_amid {ids : List Nat} {marking : Bool} (h : w.Settled) (hs : w.Sound)
    (hstage : w.stage a = .updating ids marking)
    (hmarking : t.marking = if id ∈ ids then w.marking else marking) : w.InTune id t where
  amid {b ids' marking'} hb := by
    by_cases hab : b = a
    · rw [hab, hstage] at hb
      cases hb
      exact hmarking
    · rw [h.alone hs (by rw [hstage]; nofun) hab] at hb
      cases hb
  apart hnone := absurd hstage (hnone a ids marking)

/-- No thread is being updated. -/
theorem inTune_apart (hnone : ∀ a ids marking, w.stage a ≠ .updating ids marking)
    (hmarking : t.marking = w.marking) : w.InTune id t where
  amid hb := absurd hb (hnone _ _ _)
  apart _ := hmarking

/-- No flip gets any further. -/
theorem InTune.same (h : w.InTune id t) (hstage : ∀ b, w'.stage b = w.stage b)
    (hmarking : w'.marking = w.marking) (hflag : t'.marking = t.marking) : w'.InTune id t' where
  amid {b ids marking} hb := by
    rw [hstage] at hb
    rw [hflag, hmarking]
    exact h.amid hb
  apart hnone := by
    rw [hflag, hmarking]
    apply h.apart
    intro b ids marking
    rw [← hstage]
    exact hnone b ids marking

/-- A thread in tune stays so, whatever the move: it is in the snapshot of
every flip that comes. -/
theorem Tuned.move {m : Move} (h : w.Tuned id) (hsettled : w.Settled) (hs : w.Sound)
    (hid : id ≤ w.created) (hmove : w.move? m = some w') : w'.Tuned id := by
  intro hlisted'
  have hsettled' : w'.Settled := hsettled.move hs hmove
  have hs' : w'.Sound := hs.move hmove
  obtain ⟨a, hothers, -, hturn⟩ := move?_turn hs hsettled.due hmove
  have hstage : ∀ b ≠ a, w'.stage b = w.stage b := fun b hb => stage_eq_of_actors (hothers b hb)
  generalize hbefore : w.stage a = before at hturn
  generalize hafter : w'.stage a = after at hturn
  have hsame : before = after → ∀ b, w'.stage b = w.stage b := by
    intro heq b
    by_cases hb : b = a
    · rw [hb, hafter, hbefore, heq]
    · exact hstage b hb
  cases hturn with
  | calm hcalm _ hlisted =>
      obtain ⟨t, hrec, htune⟩ := h (hlisted hlisted')
      have hrel := hcalm.records id
      rw [hrec] at hrel
      generalize hrec' : w'.records id = record at hrel
      cases hrel with
      | some hmarks => exact ⟨_, rfl, htune.same (hsame rfl) hcalm.marking hmarks.flag⟩
  | @comes name x =>
      obtain ⟨new, -, hrecords⟩ := enlist_shows w a name
      have hold : id ∈ w.listed := by
        rcases List.mem_append.mp hlisted' with hmem | hmem
        · exact hmem
        · have := List.mem_singleton.mp hmem
          omega
      obtain ⟨t, hrec, htune⟩ := h hold
      refine ⟨t, ?_, htune.same (hsame rfl) rfl rfl⟩
      rw [setActor_records, hrecords, if_neg (by omega)]
      exact hrec
  | snapshot =>
      have hlisted : id ∈ w.listed := hlisted'
      obtain ⟨t, hrec, htune⟩ := h hlisted
      refine ⟨t, hrec, inTune_amid hsettled' hs' hafter ?_⟩
      rw [if_pos hlisted]
      apply htune.apart
      intro b ids marking hb
      by_cases hab : b = a
      · rw [hab, hbefore] at hb
        cases hb
      · rw [← hstage b hab, hsettled'.alone hs' (by rw [hafter]; nofun) hab] at hb
        cases hb
  | @one id' ids marking records x hnotin hrecords =>
      obtain ⟨t, hrec, htune⟩ := h hlisted'
      have hmarking := htune.amid hbefore
      have hrec' : records id = if id = id' then some (t.flip w.isa marking) else some t := by
        rw [hrecords, hrec]
        rfl
      by_cases heq : id = id'
      · rw [if_pos heq] at hrec'
        refine ⟨_, hrec', inTune_amid hsettled' hs' hafter ?_⟩
        rw [heq, if_neg hnotin]
        rfl
      · rw [if_neg heq] at hrec'
        refine ⟨t, hrec', inTune_amid hsettled' hs' hafter ?_⟩
        rw [hmarking]
        simp only [List.mem_cons, heq, false_or]
        rfl
  | list =>
      obtain ⟨t, hrec, htune⟩ := h hlisted'
      exact ⟨t, hrec, inTune_apart (hsettled'.updated hs' hafter) (htune.amid hbefore)⟩
  | collector =>
      obtain ⟨t, hrec, htune⟩ := h hlisted'
      have hupdated := hsettled.updated hs hbefore
      refine ⟨t, hrec, inTune_apart (fun b ids marking hb => ?_) ?_⟩
      · by_cases hab : b = a
        · rw [hab, hafter] at hb
          cases hb
        · rw [hstage b hab] at hb
          exact hupdated b ids marking hb
      · exact htune.apart hupdated

theorem Tuned.follow {ms : List Move} (h : w.Tuned id) (hreach : Reachable w) (hid : id ≤ w.created)
    (hrun : w.follow ms = some w') : w'.Tuned id := by
  induction ms generalizing w with
  | nil =>
      cases hrun
      exact h
  | cons m ms ih =>
      obtain ⟨w₁, hmove, hrest⟩ := Option.bind_eq_some_iff.mp hrun
      obtain ⟨a, -, -, hturn⟩ := move?_turn hreach.sound hreach.settled.due hmove
      apply ih (h.move hreach.settled hreach.sound hid hmove) (.move m hreach hmove) ?_ hrest
      exact Nat.le_trans hid hturn.created_le

/-- Once no flip is under way, a thread in tune shows what the collector
says. -/
theorem Tuned.shows (h : w.Tuned id) (hsettled : w.Settled) (hflipping : ¬ w.Flipping)
    (hlisted : id ∈ w.listed) :
    ∃ t, w.records id = some t ∧ t.Shows w.isa w.collector.marking := by
  have hahead : ∀ a, w.stage a = .ahead := by
    intro a
    by_cases ha : w.stage a = .ahead
    · exact ha
    · exact absurd ⟨a, ha⟩ hflipping
  obtain ⟨t, hrec, htune⟩ := h hlisted
  have hmarking : t.marking = w.marking := by
    apply htune.apart
    intro a ids marking
    rw [hahead]
    nofun
  have htold : w.collector.marking = w.marking := by
    apply hsettled.told
    intro a marking
    rw [hahead]
    nofun
  refine ⟨t, hrec, ?_⟩
  rw [htold, ← hmarking]
  exact hsettled.shown hrec

end Tuned

-- ============================================================= arrival

section Arrival

variable {w w₁ : World} {a b : Nat} {name : String} {rest : List Task}

/-- What there is after the step by which a thread comes. -/
theorem step?_comes (hs : w.Sound) (hdue : FlipDue (w.stage a) (w.actors a).agenda)
    (hagenda : (w.actors a).agenda = .enlist name :: rest) (hstep : w.step? a = some w₁) :
    w₁.marking = w.marking ∧ w₁.created = w.created + 1 ∧ w.created + 1 ∈ w₁.listed
      ∧ (∃ t, w₁.records (w.created + 1) = some t ∧ t.marking = w.marking)
      ∧ ∀ b, w₁.stage b = w.stage b := by
  have hother := fun {b} => step?_other (b := b) hs hstep
  rw [hagenda] at hdue
  obtain ⟨hahead, hrest⟩ := hdue.of_calm rfl
  simp only [step?, hagenda, perform] at hstep
  cases hstep
  obtain ⟨t, ht, hrecords⟩ := enlist_shows w a name
  refine ⟨rfl, rfl, List.mem_append_right _ (List.mem_singleton.mpr rfl), ⟨t, ?_, ht.flag⟩, fun b => ?_⟩
  · rw [setActor_records, hrecords, if_pos rfl]
  · by_cases hb : b = a
    · rw [hb, hahead]
      have hafter : FlipDue .ahead (.enter :: rest) := .later rfl hrest
      refine stage_of_due ?_ hafter
      rw [setActor_actors, if_pos rfl]
      rfl
    · exact stage_eq_of_actors (hother hb)

/-- Outside the window a thread is in tune when it comes. -/
theorem tuned_of_comes (hreach : Reachable w) (hagenda : (w.actors a).agenda = .enlist name :: rest)
    (hstep : w.step? a = some w₁) (hpublished : ¬ w.Unpublished) : w₁.Tuned (w.created + 1) := by
  intro _
  obtain ⟨hlist, -, -, ⟨t, hrec, hmarking⟩, hstage⟩ :=
    step?_comes hreach.sound (hreach.settled.due a) hagenda hstep
  refine ⟨t, hrec, ⟨fun {b ids marking} hb => ?_, fun _ => hmarking.trans hlist.symm⟩⟩
  rw [hstage] at hb
  have hagrees : w.marking = marking := by
    by_cases heq : w.marking = marking
    · exact heq
    · exact absurd ⟨b, ids, marking, hb, heq⟩ hpublished
  rw [hmarking, hlist, hagrees, ite_self]

/-- Moves can bring the flip of actor `b` to its end and touch no record
but those of `ids`. -/
def Ends (w : World) (b : Nat) (ids : List Nat) (marking : Bool) : Prop :=
  ∃ ms w₂, w.follow ms = some w₂ ∧ w₂.collector.marking = marking ∧ w₂.listed = w.listed
    ∧ (∀ id, id ∉ ids → w₂.records id = w.records id)
    ∧ w₂.stage b = .ahead ∧ ∀ c ≠ b, w₂.actors c = w.actors c

theorem Ends.step {ids ids' : List Nat} {marking : Bool} (h : w₁.Ends b ids marking)
    (hstep : w.step? b = some w₁) (hlisted : w₁.listed = w.listed) (hids : ids ⊆ ids')
    (hrecords : ∀ id, id ∉ ids' → w₁.records id = w.records id)
    (hactors : ∀ c ≠ b, w₁.actors c = w.actors c) : w.Ends b ids' marking := by
  obtain ⟨ms, w₂, hrun, hcollector, hlisted₂, hrecords₂, hstage, hactors₂⟩ := h
  refine ⟨.step b :: ms, w₂, ?_, hcollector, hlisted₂.trans hlisted, fun id hid => ?_, hstage,
    fun c hc => (hactors₂ c hc).trans (hactors c hc)⟩
  · exact Option.bind_eq_some_iff.mpr ⟨w₁, hstep, hrun⟩
  · rw [hrecords₂ id fun hmem => hid (hids hmem), hrecords id hid]

theorem ends_published {marking : Bool} (hdue : FlipDue (.published marking) (w.actors b).agenda) :
    w.Ends b [] marking := by
  generalize hagenda : (w.actors b).agenda = agenda at hdue
  cases hdue with
  | @collector rest _ hrest =>
      let w₂ : World := ({ w with collector := { w.collector with marking } } : World).setActor b
        { w.actors b with agenda := .releaseAll :: rest }
      have hstep : w.step? b = some w₂ := by
        simp only [step?, hagenda, perform]
        rfl
      refine ⟨[.step b], w₂, Option.bind_eq_some_iff.mpr ⟨w₂, hstep, rfl⟩, rfl, rfl,
        fun _ _ => rfl, ?_, fun c hc => if_neg hc⟩
      have hafter : FlipDue .ahead (.releaseAll :: rest) := .later rfl (.of_flipless hrest)
      refine stage_of_due ?_ hafter
      simp only [w₂, setActor_actors, if_pos]

/-- A flip that has its snapshot can always go on to its end. -/
theorem ends_updating {ids : List Nat} {marking : Bool} (hnum : w.Numbered)
    (hdue : FlipDue (.updating ids marking) (w.actors b).agenda) : w.Ends b ids marking := by
  induction ids generalizing w with
  | nil =>
      generalize hagenda : (w.actors b).agenda = agenda at hdue
      cases hdue with
      | @list rest _ hrest =>
          let w₁ : World := ({ w with marking } : World).setActor b { w.actors b with agenda := rest }
          have hstep : w.step? b = some w₁ := by
            simp only [step?, hagenda, perform]
            rfl
          have hrest₁ : FlipDue (.published marking) (w₁.actors b).agenda := by
            simp only [w₁, setActor_actors, if_pos]
            exact hrest
          exact (ends_published hrest₁).step hstep rfl (List.Subset.refl _) (fun _ _ => rfl)
            fun c hc => if_neg hc
  | cons id ids ih =>
      generalize hagenda : (w.actors b).agenda = agenda at hdue
      cases hdue with
      | @one _ _ rest _ _ hrest =>
          let w₁ : World := (w.update id (·.flip w.isa marking)).setActor b
            { w.actors b with agenda := rest }
          have hstep : w.step? b = some w₁ := by
            simp only [step?, hagenda, perform, update_actors]
            rfl
          have hrest₁ : FlipDue (.updating ids marking) (w₁.actors b).agenda := by
            simp only [w₁, setActor_actors, if_pos]
            exact hrest
          have hid : ∀ t : ThreadRecord, (t.flip w.isa marking).id = t.id := fun _ => rfl
          have hnum₁ : w₁.Numbered := update_numbered hnum hid id
          refine (ih hnum₁ hrest₁).step hstep ?_ (List.subset_cons_self id ids) (fun id' hid' => ?_)
            fun c hc => ?_
          · obtain ⟨records, hworld⟩ := updateAll_eq w [id] (·.flip w.isa marking)
            show (w.updateAll [id] (·.flip w.isa marking)).listed = w.listed
            rw [hworld]
          · rw [setActor_records, update_records hnum hid, if_neg]
            rintro rfl
            exact hid' List.mem_cons_self
          · simp only [w₁, setActor_actors, if_neg hc, update_actors]

/-- From the moment a thread comes, whatever the order of moves: it shows
what the collector says whenever no flip is between its snapshot and its
end. This holds if, and only if, the thread did not come after a flip's
snapshot and before the list said what the flip is for. -/
theorem hears_flips_iff (hreach : Reachable w) (hagenda : (w.actors a).agenda = .enlist name :: rest)
    (hstep : w.step? a = some w₁) :
    (∀ ms w₂, w₁.follow ms = some w₂ → ¬ w₂.Flipping → w.created + 1 ∈ w₂.listed →
        ∃ t, w₂.records (w.created + 1) = some t ∧ t.Shows w₂.isa w₂.collector.marking)
      ↔ ¬ w.Unpublished := by
  have hreach₁ : Reachable w₁ := .move (.step a) hreach hstep
  obtain ⟨-, hcreated, hlisted, ⟨t, hrec, hmarking⟩, hstage⟩ :=
    step?_comes hreach.sound (hreach.settled.due a) hagenda hstep
  constructor
  · rintro hshows ⟨b, ids, marking, hb, hdiffers⟩
    -- the flip goes on to its end and passes the new thread by
    have hnew : w.created + 1 ∉ ids := by
      intro hmem
      have := hreach.settled.past hb _ hmem
      omega
    have hupdating : w₁.stage b = .updating ids marking := by rw [hstage, hb]
    have hdue := hreach₁.settled.due b
    rw [hupdating] at hdue
    obtain ⟨ms, w₂, hrun, hcollector, hlisted₂, hrecords, hahead, hactors⟩ :=
      ends_updating hreach₁.sound.ledger.toNumbered hdue
    have hflipping : ¬ w₂.Flipping := by
      rintro ⟨c, hc⟩
      by_cases hcb : c = b
      · exact hc (by rw [hcb, hahead])
      · rw [stage_eq_of_actors (hactors c hcb)] at hc
        apply hc
        exact hreach₁.settled.alone hreach₁.sound (by rw [hupdating]; nofun) hcb
    obtain ⟨t₂, hrec₂, ht₂⟩ := hshows ms w₂ hrun hflipping (hlisted₂ ▸ hlisted)
    rw [hrecords _ hnew, hrec] at hrec₂
    cases hrec₂
    apply hdiffers
    rw [← hmarking, ht₂.flag, hcollector]
  · intro hpublished ms w₂ hrun hflipping hlisted₂
    have htuned := tuned_of_comes hreach hagenda hstep hpublished
    have htuned₂ := htuned.follow hreach₁ (Nat.le_of_eq hcreated.symm) hrun
    exact htuned₂.shows (hreach₁.follow hrun).settled hflipping hlisted₂

end Arrival

-- ---------------------------------------------- a run through the window

/-- Actor 1 starts marking and has stopped the world. -/
def markingAhead : List Move :=
  [.start 1 (.flip true), .step 1, .step 1, .step 1, .step 1]

/-- A thread that comes before the snapshot is in it. -/
theorem hears_flips_early : ∃ w w₁, Reachable w ∧ (w.actors 0).agenda = [.enlist "early"]
    ∧ w.step? 0 = some w₁ ∧ w₁.listed = [1] ∧ (w.actors 1).guard.isSome
    ∧ ∀ ms w₂, w₁.follow ms = some w₂ → ¬ w₂.Flipping → w.created + 1 ∈ w₂.listed →
        ∃ t, w₂.records (w.created + 1) = some t ∧ t.Shows w₂.isa w₂.collector.marking := by
  have hreach : Reachable ((follow { isa := .x86_64 }
      (markingAhead ++ [.start 0 (.attach "early")])).get rfl) :=
    (Reachable.fresh .x86_64).follow (Option.some_get _).symm
  refine ⟨_, _, hreach, rfl, rfl, rfl, rfl, ?_⟩
  refine (hears_flips_iff (a := 0) hreach rfl rfl).mpr ?_
  rintro ⟨b, ids, marking, hb, -⟩
  match b with
  | 0 => cases hb
  | 1 => cases hb
  | b + 2 => cases hb

/-- It is not so that every listed thread shows what the collector says
whenever nobody is in the middle of anything: a thread that came between
snapshot and publication does not. -/
theorem not_always_heard : ¬ ∀ w, Reachable w → (∀ a, w.isIdle a) → ∀ id ∈ w.listed,
    ∃ t, w.records id = some t ∧ t.Shows w.isa w.collector.marking := by
  intro hall
  have hreach : Reachable ((follow { isa := .x86_64 } (markingAhead ++ [.step 1,
      .start 0 (.attach "late"), .step 0, .step 1, .step 1, .step 1, .step 1,
      .step 0, .step 0, .step 0])).get rfl) :=
    (Reachable.fresh .x86_64).follow (Option.some_get _).symm
  obtain ⟨t, hrec, ht⟩ := hall _ hreach (fun a => by
    match a with
    | 0 => rfl
    | 1 => rfl
    | a + 2 => rfl) 1 (by decide)
  have hflag := ht.flag
  cases hrec
  cases hflag

end World

end Crossing
