import Crossing.Proofs.Thread.Step

/-
The books of suspend requests. While a suspension is in progress every
listed thread but the one that asked has exactly one request, whether it
was there at the start or came later, and without one nobody has any. The
books are kept through all that changes them: threads that come and go,
requests that are made, and requests that are taken back, of which none is
ever missing.
-/
namespace Crossing

namespace World

-- ============================================================ ledger

/-- How many suspend requests a listed thread has to have, given what is in
force: one, if that is not its own. -/
def requestsOn (force : Option (Option Nat)) (id : Nat) : Nat :=
  match force with
  | none => 0
  | some suspender => if suspender = some id then 0 else 1

theorem requestsOn_some (suspender : Option Nat) (id : Nat) :
    requestsOn (some suspender) id = if suspender = some id then 0 else 1 := rfl

/-- The records and the list are in order, and suspend requests are what a
suspension on behalf of `force` demands. -/
structure Ledger (w : World) (force : Option (Option Nat)) : Prop where
  numbered : ∀ {id t}, w.records id = some t → t.id = id ∧ id ≤ w.created
  owned : ∀ {a id}, (w.actors a).record = some id → (w.records id).isSome
  past : ∀ {a g id}, (w.actors a).guard = some g → g.suspender = some id → id ≤ w.created
  present : ∀ {id}, id ∈ w.listed → (w.records id).isSome
  distinct : w.listed.Nodup
  flag : ∀ {id t}, w.records id = some t → (t.word.suspend = true ↔ t.suspendCount ≠ 0)
  total : w.suspendAllCount = if force.isSome then 1 else 0
  count : ∀ {id t}, id ∈ w.listed → w.records id = some t → t.suspendCount = requestsOn force id

namespace Ledger

variable {w w' : World} {force : Option (Option Nat)} {a : Nat} {x : Actor}

theorem toNumbered (h : w.Ledger force) : w.Numbered := fun hrec => (h.numbered hrec).1

theorem id_le (h : w.Ledger force) {id : Nat} (hid : (w.records id).isSome) : id ≤ w.created := by
  obtain ⟨t, hrec⟩ := Option.isSome_iff_exists.mp hid
  exact (h.numbered hrec).2

theorem current_le (h : w.Ledger force) {id : Nat} (hid : (w.actors a).current = some id) :
    id ≤ w.created := by
  unfold Actor.current at hid
  split at hid
  · exact h.id_le (h.owned hid)
  · cases hid

/-- Nothing is booked. -/
theorem frame (h : w.Ledger force) (hmild : w.Mild w')
    (hactors : ∀ b, (w'.actors b).record = (w.actors b).record
      ∧ (w'.actors b).guard = (w.actors b).guard) : w'.Ledger force := by
  have hback : ∀ {id t'}, w'.records id = some t' → ∃ t, w.records id = some t ∧ t.Keeps t' := by
    intro id t' hrec
    have hrel := hmild.records id
    rw [hrec] at hrel
    cases hold : w.records id with
    | none => rw [hold] at hrel; cases hrel
    | some t => rw [hold] at hrel; cases hrel with | some hkeeps => exact ⟨t, rfl, hkeeps⟩
  have hsome : ∀ {id}, (w.records id).isSome → (w'.records id).isSome := by
    intro id hid
    obtain ⟨t, hrec⟩ := Option.isSome_iff_exists.mp hid
    have hrel := hmild.records id
    rw [hrec] at hrel
    cases hnew : w'.records id with
    | none => rw [hnew] at hrel; cases hrel
    | some t' => rfl
  constructor
  case numbered =>
    intro id t' hrec
    obtain ⟨t, hold, hkeeps⟩ := hback hrec
    rw [hkeeps.id, hmild.created]
    exact h.numbered hold
  case owned =>
    intro b id hrecord
    rw [(hactors b).1] at hrecord
    exact hsome (h.owned hrecord)
  case past =>
    intro b g id hguard hg
    rw [(hactors b).2] at hguard
    rw [hmild.created]
    exact h.past hguard hg
  case present =>
    intro id hid
    rw [hmild.listed] at hid
    exact hsome (h.present hid)
  case distinct => rw [hmild.listed]; exact h.distinct
  case flag =>
    intro id t' hrec
    obtain ⟨t, hold, hkeeps⟩ := hback hrec
    rw [hkeeps.flag, hkeeps.count]
    exact h.flag hold
  case total => rw [hmild.suspendAllCount]; exact h.total
  case count =>
    intro id t' hid hrec
    obtain ⟨t, hold, hkeeps⟩ := hback hrec
    rw [hmild.listed] at hid
    rw [hkeeps.count]
    exact h.count hid hold

/-- One actor changes: what it owns and what its guard names is known. -/
theorem setActor (h : w.Ledger force) (hrecord : ∀ id, x.record = some id → (w.records id).isSome)
    (hpast : ∀ g id, x.guard = some g → g.suspender = some id → id ≤ w.created) :
    (w.setActor a x).Ledger force where
  numbered := h.numbered
  owned {b id} hid := by
    rw [setActor_actors] at hid
    split at hid
    · exact hrecord id hid
    · exact h.owned hid
  past {b g id} hguard hid := by
    rw [setActor_actors] at hguard
    split at hguard
    · exact hpast g id hguard hid
    · exact h.past hguard hid
  present := h.present
  distinct := h.distinct
  flag := h.flag
  total := h.total
  count := h.count

/-- Neither an agenda nor the lock is booked. -/
theorem setAgenda (h : w.Ledger force) (hrecord : x.record = (w.actors a).record)
    (hguard : x.guard = (w.actors a).guard) : (w.setActor a x).Ledger force := by
  refine h.setActor (fun id hid => ?_) fun g id hg => ?_
  · rw [hrecord] at hid
    exact h.owned hid
  · rw [hguard] at hg
    exact h.past hg

theorem setLock (h : w.Ledger force) (lock : Option Nat) :
    ({ w with suspensionLock := lock } : World).Ledger force :=
  ⟨h.numbered, h.owned, h.past, h.present, h.distinct, h.flag, h.total, h.count⟩

/-- A thread that comes has one request for every suspension in
progress. -/
theorem requestsOn_new (h : w.Ledger force) {id : Nat}
    (hforce : ∀ id, force = some (some id) → id ≤ w.created) (hid : w.created < id) :
    requestsOn force id = w.suspendAllCount := by
  rw [h.total]
  unfold requestsOn
  split
  · rfl
  · next suspender =>
      have hne : suspender ≠ some id := by
        rintro rfl
        have := hforce id rfl
        omega
      rw [if_neg hne]
      rfl

end Ledger

-- ================================================= coming and going

/-- Requests that are added show. -/
theorem requestSuspend_spec (t : ThreadRecord) (n : Nat)
    (hflag : t.word.suspend = true ↔ t.suspendCount ≠ 0) :
    (t.requestSuspend n).id = t.id ∧ (t.requestSuspend n).state = t.state
      ∧ (t.requestSuspend n).suspendCount = t.suspendCount + n
      ∧ ((t.requestSuspend n).word.suspend = true ↔ (t.requestSuspend n).suspendCount ≠ 0) := by
  unfold ThreadRecord.requestSuspend
  split
  · next hn => exact ⟨rfl, rfl, by rw [hn]; rfl, hflag⟩
  · next hn =>
      refine ⟨rfl, rfl, rfl, fun _ => ?_, fun _ => rfl⟩
      show t.suspendCount + n ≠ 0
      omega

/-- The record of a thread that comes. -/
theorem enlist_records (w : World) (a : Nat) (name : String) : ∃ t : ThreadRecord,
    (∀ id, (w.enlist a name).records id = if id = w.created + 1 then some t else w.records id)
      ∧ t.id = w.created + 1 ∧ t.state = .native ∧ t.suspendCount = w.suspendAllCount
      ∧ (t.word.suspend = true ↔ t.suspendCount ≠ 0) := by
  let fresh := ThreadRecord.fresh (w.created + 1) name w.isa a
  let t := if w.marking then fresh.flip w.isa true else fresh
  have ht : t.id = w.created + 1 ∧ t.state = .native ∧ t.suspendCount = 0
      ∧ (t.word.suspend = true ↔ t.suspendCount ≠ 0) := by
    by_cases hmarking : w.marking
    · simp [t, fresh, hmarking, ThreadRecord.fresh, ThreadRecord.flip, ThreadRecord.state]
    · simp [t, fresh, hmarking, ThreadRecord.fresh, ThreadRecord.state]
  obtain ⟨hid, hstate, hcount, hflag⟩ := requestSuspend_spec t w.suspendAllCount ht.2.2.2
  rw [ht.1] at hid
  rw [ht.2.1] at hstate
  rw [ht.2.2.1, Nat.zero_add] at hcount
  refine ⟨t.requestSuspend w.suspendAllCount, fun id => ?_, hid, hstate, hcount, hflag⟩
  rw [← hid]
  rfl

theorem Ledger.enlist {w : World} {force : Option (Option Nat)} (h : w.Ledger force)
    (hforce : ∀ id, force = some (some id) → id ≤ w.created) (a : Nat) (name : String) :
    (w.enlist a name).Ledger force := by
  obtain ⟨t, hrecords, hid, -, hcount, hflag⟩ := enlist_records w a name
  have hsome : ∀ {id}, (w.records id).isSome → ((w.enlist a name).records id).isSome := by
    intro id hsome
    rw [hrecords]
    split
    · rfl
    · exact hsome
  have hnew : ((w.enlist a name).records (w.created + 1)).isSome := by
    rw [hrecords, if_pos rfl]
    rfl
  have hfresh : w.created + 1 ∉ w.listed := fun hmem => by
    have := h.id_le (h.present hmem)
    omega
  constructor
  case numbered =>
    intro id t' hrec
    rw [hrecords] at hrec
    split at hrec
    · next hnew =>
        cases hrec
        exact ⟨hnew ▸ hid, Nat.le_of_eq hnew⟩
    · exact ⟨(h.numbered hrec).1, Nat.le_succ_of_le (h.numbered hrec).2⟩
  case owned =>
    intro b id hrecord
    by_cases hb : b = a
    · have hactor : ((w.enlist a name).actors b).record = some (w.created + 1) := by
        simp [World.enlist, hb]
      rw [hactor] at hrecord
      cases hrecord
      exact hnew
    · have hactor : (w.enlist a name).actors b = w.actors b := if_neg hb
      rw [hactor] at hrecord
      exact hsome (h.owned hrecord)
  case past =>
    intro b g id hguard hg
    have hkept : ((w.enlist a name).actors b).guard = (w.actors b).guard := by
      by_cases hb : b = a
      · simp [World.enlist, hb]
      · simp [World.enlist, hb]
    rw [hkept] at hguard
    exact Nat.le_succ_of_le (h.past hguard hg)
  case present =>
    intro id hid
    rcases List.mem_append.mp hid with hid | hid
    · exact hsome (h.present hid)
    · rw [List.mem_singleton.mp hid]
      exact hnew
  case distinct =>
    refine List.nodup_append.mpr ⟨h.distinct, by simp, fun id hid id' hid' => ?_⟩
    rw [List.mem_singleton.mp hid']
    rintro rfl
    exact hfresh hid
  case flag =>
    intro id t' hrec
    rw [hrecords] at hrec
    split at hrec
    · cases hrec
      exact hflag
    · exact h.flag hrec
  case total => exact h.total
  case count =>
    intro id t' hid' hrec
    rw [hrecords] at hrec
    split at hrec
    · next hnew =>
        cases hrec
        rw [hcount, hnew, h.requestsOn_new hforce (Nat.lt_succ_self _)]
    · next hold =>
        rcases List.mem_append.mp hid' with hmem | hmem
        · exact h.count hmem hrec
        · exact absurd (List.mem_singleton.mp hmem) hold

theorem Ledger.unlist {w : World} {force : Option (Option Nat)} (h : w.Ledger force)
    (keep : Nat → Bool) : ({ w with listed := w.listed.filter keep } : World).Ledger force where
  numbered := h.numbered
  owned := h.owned
  past := h.past
  present hid := h.present (List.mem_filter.mp hid).1
  distinct := h.distinct.sublist List.filter_sublist
  flag := h.flag
  total := h.total
  count hid := h.count (List.mem_filter.mp hid).1

-- ========================================== requests made and taken back

/-- Changes the records with some numbers. -/
def updateAll (w : World) (ids : List Nat) (f : ThreadRecord → ThreadRecord) : World :=
  ids.foldl (fun w id => w.update id f) w

section UpdateAll

variable {w : World} {ids : List Nat} {f : ThreadRecord → ThreadRecord}

theorem update_records (hnum : w.Numbered) (hid : ∀ t, (f t).id = t.id) (id id' : Nat) :
    (w.update id f).records id' = if id' = id then (w.records id').map f else w.records id' := by
  unfold update
  cases hrec : w.records id with
  | none =>
      show w.records id' = _
      by_cases heq : id' = id
      · rw [if_pos heq, heq, hrec]
        rfl
      · rw [if_neg heq]
  | some t =>
      show (w.setRecord (f t)).records id' = _
      rw [setRecord_records, hid, hnum hrec]
      by_cases heq : id' = id
      · rw [if_pos heq, if_pos heq, heq, hrec]
        rfl
      · rw [if_neg heq, if_neg heq]

theorem update_numbered (hnum : w.Numbered) (hid : ∀ t, (f t).id = t.id) (id : Nat) :
    (w.update id f).Numbered := by
  intro id' t' hrec
  rw [update_records hnum hid] at hrec
  split at hrec
  · obtain ⟨t, hold, rfl⟩ := Option.map_eq_some_iff.mp hrec
    rw [hid]
    exact hnum hold
  · exact hnum hrec

/-- Each record is changed once. -/
theorem updateAll_records (hnum : w.Numbered) (hid : ∀ t, (f t).id = t.id) (hnodup : ids.Nodup)
    (id : Nat) : (w.updateAll ids f).records id
      = if id ∈ ids then (w.records id).map f else w.records id := by
  induction ids generalizing w with
  | nil => rfl
  | cons i ids ih =>
      obtain ⟨hnotin, hnodup⟩ := List.nodup_cons.mp hnodup
      show ((w.update i f).updateAll ids f).records id = _
      rw [ih (update_numbered hnum hid i) hnodup, update_records hnum hid]
      by_cases hi : id = i
      · subst hi
        simp [hnotin]
      · simp [hi]

/-- Only records are changed. -/
theorem updateAll_eq (w : World) (ids : List Nat) (f : ThreadRecord → ThreadRecord) :
    ∃ records, w.updateAll ids f = { w with records } := by
  induction ids generalizing w with
  | nil => exact ⟨w.records, rfl⟩
  | cons i ids ih =>
      have hstep : ∃ records, w.update i f = { w with records } := by
        unfold update
        split
        · exact ⟨_, rfl⟩
        · exact ⟨_, rfl⟩
      obtain ⟨records, hrecords⟩ := hstep
      show ∃ records', (w.update i f).updateAll ids f = { w with records := records' }
      rw [hrecords]
      exact ih _

theorem updateAll_state (hnum : w.Numbered) (hid : ∀ t, (f t).id = t.id) (hnodup : ids.Nodup)
    (hstate : ∀ t, (f t).state = t.state) {id : Nat} {t' : ThreadRecord}
    (hrec : (w.updateAll ids f).records id = some t') :
    ∃ t, w.records id = some t ∧ t'.state = t.state := by
  rw [updateAll_records hnum hid hnodup] at hrec
  split at hrec
  · obtain ⟨t, hold, rfl⟩ := Option.map_eq_some_iff.mp hrec
    exact ⟨t, hold, hstate t⟩
  · exact ⟨t', hrec, rfl⟩

end UpdateAll

theorem mem_others {w : World} {suspender : Option Nat} {id : Nat} :
    id ∈ w.others suspender ↔ id ∈ w.listed ∧ suspender ≠ some id := by
  unfold others
  rw [List.mem_filter, decide_eq_true_iff]
  exact and_congr_right fun _ => ne_comm

/-- Requests are booked on some records at once. -/
theorem Ledger.book {w : World} {force force' : Option (Option Nat)} (h : w.Ledger force) {n : Nat}
    {ids : List Nat} {f : ThreadRecord → ThreadRecord} (hnodup : ids.Nodup)
    (hid : ∀ t, (f t).id = t.id)
    (hflag : ∀ {id t}, id ∈ ids → w.records id = some t →
      ((f t).word.suspend = true ↔ (f t).suspendCount ≠ 0))
    (htotal : n = if force'.isSome then 1 else 0)
    (hcount : ∀ {id t}, id ∈ w.listed → w.records id = some t →
      (if id ∈ ids then (f t).suspendCount else t.suspendCount) = requestsOn force' id) :
    (({ w with suspendAllCount := n } : World).updateAll ids f).Ledger force' := by
  have hrecords := updateAll_records (w := { w with suspendAllCount := n }) h.toNumbered hid hnodup
  obtain ⟨records, heq⟩ := updateAll_eq { w with suspendAllCount := n } ids f
  rw [heq] at hrecords ⊢
  have hback : ∀ {id t'}, records id = some t' → ∃ t, w.records id = some t
      ∧ (id ∈ ids ∧ t' = f t ∨ id ∉ ids ∧ t' = t) := by
    intro id t' hrec
    rw [show records id = _ from hrecords id] at hrec
    split at hrec
    · next hmem =>
        obtain ⟨t, hold, rfl⟩ := Option.map_eq_some_iff.mp hrec
        exact ⟨t, hold, .inl ⟨hmem, rfl⟩⟩
    · next hmem => exact ⟨t', hrec, .inr ⟨hmem, rfl⟩⟩
  have hsome : ∀ {id}, (w.records id).isSome → (records id).isSome := by
    intro id hsome
    rw [show records id = _ from hrecords id]
    split
    · rwa [Option.isSome_map]
    · exact hsome
  constructor
  case numbered =>
    intro id t' hrec
    obtain ⟨t, hold, ⟨-, rfl⟩ | ⟨-, rfl⟩⟩ := hback hrec
    · rw [hid]
      exact h.numbered hold
    · exact h.numbered hold
  case owned => exact fun hrecord => hsome (h.owned hrecord)
  case past => exact h.past
  case present => exact fun hmem => hsome (h.present hmem)
  case distinct => exact h.distinct
  case flag =>
    intro id t' hrec
    obtain ⟨t, hold, ⟨hmem, rfl⟩ | ⟨-, rfl⟩⟩ := hback hrec
    · exact hflag hmem hold
    · exact h.flag hold
  case total => exact htotal
  case count =>
    intro id t' hmem hrec
    obtain ⟨t, hold, ⟨hin, rfl⟩ | ⟨hin, rfl⟩⟩ := hback hrec
    · rw [← hcount hmem hold, if_pos hin]
    · rw [← hcount hmem hold, if_neg hin]

/-- One more request, and the trigger with it. -/
def ask (implicitChecks : Bool) (t : ThreadRecord) : ThreadRecord :=
  let t := t.requestSuspend 1
  if implicitChecks then t.armTrigger else t

theorem ask_spec (implicitChecks : Bool) (t : ThreadRecord)
    (hflag : t.word.suspend = true ↔ t.suspendCount ≠ 0) :
    (ask implicitChecks t).suspendCount = t.suspendCount + 1
      ∧ ((ask implicitChecks t).word.suspend = true ↔ (ask implicitChecks t).suspendCount ≠ 0) := by
  have hspec := (requestSuspend_spec t 1 hflag).2.2
  unfold ask
  cases implicitChecks with
  | true => exact hspec
  | false => exact hspec

theorem requestAll_eq (w : World) (a : Nat) : w.requestAll a
    = ({ w with suspendAllCount := w.suspendAllCount + 1 } : World).updateAll
        (w.others (w.actors a).current) (ask w.implicitChecks) := rfl

theorem ask_id (implicitChecks : Bool) (t : ThreadRecord) : (ask implicitChecks t).id = t.id := by
  cases implicitChecks with
  | true => rfl
  | false => rfl

theorem ask_state (implicitChecks : Bool) (t : ThreadRecord) :
    (ask implicitChecks t).state = t.state := by
  cases implicitChecks with
  | true => rfl
  | false => rfl

/-- Asking changes records and the number of suspensions alone. -/
theorem requestAll_frame (w : World) (a : Nat) : ∃ records,
    w.requestAll a = { w with suspendAllCount := w.suspendAllCount + 1, records } := by
  rw [requestAll_eq]
  exact updateAll_eq { w with suspendAllCount := w.suspendAllCount + 1 } _ _

/-- Asking stops nobody by itself. -/
theorem Ledger.requestAll_state {w : World} {force : Option (Option Nat)} (h : w.Ledger force)
    {a id : Nat} {t' : ThreadRecord} (hrec : (w.requestAll a).records id = some t') :
    ∃ t, w.records id = some t ∧ t'.state = t.state := by
  rw [requestAll_eq] at hrec
  exact updateAll_state (w := { w with suspendAllCount := w.suspendAllCount + 1 }) h.toNumbered
    (ask_id _) (h.distinct.sublist List.filter_sublist) (ask_state _) hrec

/-- Everybody else is asked to stop. -/
theorem Ledger.request {w : World} (h : w.Ledger none) (a : Nat) :
    (w.requestAll a).Ledger (some (w.actors a).current) := by
  have hzero : ∀ {id t}, id ∈ w.listed → w.records id = some t → t.suspendCount = 0 :=
    fun hmem hrec => h.count hmem hrec
  rw [requestAll_eq]
  refine h.book (h.distinct.sublist List.filter_sublist) (ask_id _)
    (fun hmem hrec => (ask_spec _ _ (h.flag hrec)).2) ?_ fun {id t} hmem hrec => ?_
  · rw [h.total]
    rfl
  · rw [(ask_spec _ _ (h.flag hrec)).1, hzero hmem hrec, requestsOn_some]
    by_cases hsuspender : (w.actors a).current = some id
    · rw [if_neg (fun hin => (mem_others.mp hin).2 hsuspender), if_pos hsuspender]
    · rw [if_pos (mem_others.mpr ⟨hmem, hsuspender⟩), if_neg hsuspender]

/-- The last request is taken back, and the trigger with it. -/
def letGo (t : ThreadRecord) : ThreadRecord :=
  ThreadRecord.disarmTrigger { t with suspendCount := 0, word := { t.word with suspend := false } }

theorem releaseOne_last {w : World} {id : Nat}
    (hcount : ∀ t, w.records id = some t → t.suspendCount = 1) :
    w.releaseOne id = .ok (w.update id letGo) := by
  unfold releaseOne update
  cases hrec : w.records id with
  | none => rfl
  | some t =>
      have hrelease : t.releaseSuspend
          = .ok { t with suspendCount := 0, word := { t.word with suspend := false } } := by
        unfold ThreadRecord.releaseSuspend
        rw [hcount t hrec]
      show (t.releaseSuspend >>= _) = _
      rw [hrelease]
      rfl

theorem releaseOne_all {w : World} {ids : List Nat} (hnum : w.Numbered) (hnodup : ids.Nodup)
    (hcount : ∀ id ∈ ids, ∀ t, w.records id = some t → t.suspendCount = 1) :
    ids.foldlM releaseOne w = .ok (w.updateAll ids letGo) := by
  induction ids generalizing w with
  | nil => rfl
  | cons i ids ih =>
      obtain ⟨hnotin, hnodup⟩ := List.nodup_cons.mp hnodup
      have hid : ∀ t, (letGo t).id = t.id := fun _ => rfl
      rw [List.foldlM_cons, releaseOne_last (hcount i List.mem_cons_self)]
      refine ih (update_numbered hnum hid i) hnodup fun id hmem t hrec => ?_
      rw [update_records hnum hid, if_neg (fun heq : id = i => hnotin (heq ▸ hmem))] at hrec
      exact hcount id (List.mem_cons_of_mem _ hmem) t hrec

/-- What taking back all requests of a suspension comes to. -/
def letAllGo (w : World) (suspender : Option Nat) : World :=
  ({ w with suspendAllCount := w.suspendAllCount - 1 } : World).updateAll (w.others suspender) letGo

/-- Releasing changes records and the number of suspensions alone. -/
theorem letAllGo_frame (w : World) (suspender : Option Nat) : ∃ records,
    w.letAllGo suspender = { w with suspendAllCount := w.suspendAllCount - 1, records } :=
  updateAll_eq { w with suspendAllCount := w.suspendAllCount - 1 } _ _

/-- Releasing sets nobody running by itself. -/
theorem Ledger.letAllGo_state {w : World} {force : Option (Option Nat)} (h : w.Ledger force)
    {suspender : Option Nat} {id : Nat} {t' : ThreadRecord}
    (hrec : (w.letAllGo suspender).records id = some t') :
    ∃ t, w.records id = some t ∧ t'.state = t.state :=
  updateAll_state (w := { w with suspendAllCount := w.suspendAllCount - 1 }) (f := letGo) h.toNumbered
    (fun _ => rfl) (h.distinct.sublist List.filter_sublist) (fun _ => rfl) hrec

/-- Everybody's request is taken back, and nobody's is missing. -/
theorem Ledger.release {w : World} {suspender : Option Nat} (h : w.Ledger (some suspender)) :
    w.releaseAll suspender = .ok (w.letAllGo suspender) ∧ (w.letAllGo suspender).Ledger none := by
  have hnodup : (w.others suspender).Nodup := h.distinct.sublist List.filter_sublist
  constructor
  · refine releaseOne_all h.toNumbered hnodup fun id hmem t hrec => ?_
    obtain ⟨hlisted, hother⟩ := mem_others.mp hmem
    rw [h.count hlisted hrec, requestsOn_some, if_neg hother]
  · refine h.book hnodup (fun _ => rfl) (fun _ _ => ?_) ?_ fun {id t} hmem hrec => ?_
    · exact ⟨nofun, fun hne => absurd rfl hne⟩
    · rw [h.total]
      rfl
    · split
      · rfl
      · next hin =>
          rw [h.count hmem hrec, requestsOn_some]
          by_cases hsuspender : suspender = some id
          · rw [if_pos hsuspender]
            rfl
          · exact absurd (mem_others.mpr ⟨hmem, hsuspender⟩) hin

end World

end Crossing
