import Crossing.Proofs.Thread.Ledger

/-
One suspension at a time. The lock goes round with the phases of the actor
that holds it, so what is in force can be read off one actor: from the
moment it has asked everybody to stop until it gives its guard up. `Sound`
joins that to the ledger, and every move keeps it.
-/
namespace Crossing

-- ============================================================ actors

namespace Actor

/-- On whose behalf the actor has asked all others to stop, if it has: the
outer `none` is no suspension, the inner one an unattached actor. -/
def suspender? (x : Actor) : Option (Option Nat) :=
  match x.guard, x.agenda with
  | some g, _ => some g.suspender
  | none, .awaitStopped _ :: _ => some x.current
  | none, _ => none

/-- The actor is in phase `p`: its agenda fits, or the thread has waited
and is about to be woken. -/
structure Tidy (x : Actor) (p : Phase) : Prop where
  guard : p = .held ↔ x.guard.isSome
  agenda : Fits p x.agenda ∨ ∃ rest, x.agenda = .wake :: rest ∧ p.Rests ∧ Fits p rest

variable {x x' : Actor} {p : Phase} {task : Task} {tasks rest : List Task}

theorem Tidy.guard_eq_none (h : x.Tidy p) (hp : p ≠ .held) : x.guard = none := by
  cases hguard : x.guard with
  | none => rfl
  | some g => exact absurd (h.guard.mpr (by rw [hguard]; rfl)) hp

/-- A first task that has a part in stopping the world fits the phase. -/
theorem Tidy.fits (h : x.Tidy p) (hagenda : x.agenda = task :: rest) (hstops : task.stops = true) :
    Fits p (task :: rest) := by
  rcases h.agenda with hfits | ⟨rest', hwake, -, -⟩
  · rwa [hagenda] at hfits
  · rw [hagenda] at hwake
    cases hwake
    cases hstops

/-- Any other first task finds the actor at rest. -/
theorem Tidy.rests (h : x.Tidy p) (hagenda : x.agenda = task :: rest)
    (hstops : task.stops = false) : p.Rests ∧ (Fits p rest ∨ task = .awaitResume
      ∧ ∃ rest', rest = .wake :: rest' ∧ Fits p rest') := by
  rcases h.agenda with hfits | ⟨rest', hwake, hp, hrest⟩
  · rw [hagenda] at hfits
    cases hfits with
    | plain hp _ hrest => exact ⟨hp, .inl hrest⟩
    | resume hp hrest => exact ⟨hp, .inr ⟨rfl, _, rfl, hrest⟩⟩
    | _ => cases hstops
  · rw [hagenda] at hwake
    cases hwake
    exact ⟨hp, .inl hrest⟩

/-- After any task but a wait, what is left of the agenda fits, and is not
the wait for everybody to stop. -/
theorem Tidy.next (h : x.Tidy p) (hagenda : x.agenda = task :: rest) (hwait : task ≠ .awaitResume) :
    ∃ q, q ≠ .asked ∧ Fits q rest := by
  cases hstops : task.stops with
  | true =>
      cases h.fits hagenda hstops with
      | plain hp _ hrest => exact ⟨p, hp.ne_asked, hrest⟩
      | resume _ _ => exact absurd rfl hwait
      | lock _ hrest => exact ⟨.locked, nofun, hrest⟩
      | request hrest => exact ⟨.held, nofun, hrest⟩
      | await hrest => exact ⟨.held, nofun, hrest⟩
      | release hrest => exact ⟨.released, nofun, hrest⟩
      | unlock hrest => exact ⟨.free, nofun, hrest⟩
  | false =>
      obtain ⟨hp, hrest | ⟨hwait', -⟩⟩ := h.rests hagenda hstops
      · exact ⟨p, hp.ne_asked, hrest⟩
      · exact absurd hwait' hwait

/-- An actor with nothing to do is at rest. -/
theorem Tidy.idle (h : x.Tidy p) (hidle : x.agenda = []) : p.Rests := by
  rcases h.agenda with hfits | ⟨rest, hwake, -, -⟩
  · rw [hidle] at hfits
    cases hfits with
    | done hp => exact hp
  · rw [hidle] at hwake
    cases hwake

/-- A plain task other than a wait is followed by what fits the phase. -/
theorem Tidy.tail (h : x.Tidy p) (hagenda : x.agenda = task :: rest) (hplain : task.isPlain = true)
    (hwait : task ≠ .awaitResume) : p.Rests ∧ Fits p rest := by
  obtain ⟨hp, hrest | ⟨hwait', -⟩⟩ := h.rests hagenda (Task.stops_of_isPlain hplain)
  · exact ⟨hp, hrest⟩
  · exact absurd hwait' hwait

/-- An actor at rest asks on behalf of its guard alone. -/
theorem Tidy.suspender?_eq (h : x.Tidy p) (hp : p.Rests) :
    x.suspender? = x.guard.map (·.suspender) := by
  unfold suspender?
  split
  · next hguard => rw [hguard]; rfl
  · next targets rest hguard hagenda =>
      exact absurd (h.fits hagenda rfl).of_await.1 hp.ne_asked
  · next hguard _ => rw [hguard]; rfl

theorem Tidy.suspender?_eq_none (h : x.Tidy p) (hheld : p ≠ .held) (hasked : p ≠ .asked) :
    x.suspender? = none := by
  unfold suspender?
  split
  · next hguard => rw [h.guard_eq_none hheld] at hguard; cases hguard
  · next targets rest _ hagenda =>
      exact absurd (h.fits hagenda rfl).of_await.1 hasked
  · rfl

theorem suspender?_of_guard {g : SuspendGuard} (hguard : x.guard = some g) :
    x.suspender? = some g.suspender := by
  unfold suspender?
  rw [hguard]

theorem suspender?_of_await {targets : List Nat} (hguard : x.guard = none)
    (hagenda : x.agenda = .awaitStopped targets :: rest) : x.suspender? = some x.current := by
  unfold suspender?
  rw [hguard, hagenda]

/-- A change of an actor that leaves its guard and its phase alone. -/
structure Keeps (x x' : Actor) : Prop where
  guard : x'.guard = x.guard
  tidy : ∀ {p}, x.Tidy p → x'.Tidy p ∧ x'.suspender? = x.suspender?

theorem Keeps.refl (x : Actor) : x.Keeps x := ⟨rfl, fun h => ⟨h, rfl⟩⟩

/-- An actor at rest is given another agenda. -/
theorem Keeps.ofTidy (hguard : x'.guard = x.guard)
    (htidy : ∀ {p}, x.Tidy p → p.Rests ∧ x'.Tidy p) : x.Keeps x' where
  guard := hguard
  tidy h := by
    obtain ⟨hp, h'⟩ := htidy h
    refine ⟨h', ?_⟩
    rw [h'.suspender?_eq hp, h.suspender?_eq hp, hguard]

end Actor

-- ============================================================== lock

namespace World

/-- Every actor is in a phase, and the lock is with the one that has a
part in stopping the world. -/
def Ordered (w : World) : Prop :=
  ∀ a, ∃ p, (w.actors a).Tidy p ∧ (w.suspensionLock = some a ↔ p ≠ .free)

/-- On whose behalf the world is being stopped, if it is. -/
def inForce (w : World) : Option (Option Nat) :=
  w.suspensionLock.bind fun a => (w.actors a).suspender?

section Lock

variable {w w' : World} {a b : Nat} {x : Actor} {p : Phase}

theorem Ordered.free (h : w.Ordered) (hlock : w.suspensionLock ≠ some a) :
    (w.actors a).Tidy .free := by
  obtain ⟨p, htidy, hp⟩ := h a
  by_cases hfree : p = .free
  · rwa [hfree] at htidy
  · exact absurd (hp.mpr hfree) hlock

/-- Nobody's phase or guard changes. -/
theorem Ordered.frame (h : w.Ordered) (hlock : w'.suspensionLock = w.suspensionLock)
    (hactors : ∀ b, (w.actors b).Keeps (w'.actors b)) :
    w'.Ordered ∧ w'.inForce = w.inForce := by
  constructor
  · intro b
    obtain ⟨p, htidy, hp⟩ := h b
    rw [hlock]
    exact ⟨p, ((hactors b).tidy htidy).1, hp⟩
  · unfold inForce
    rw [hlock]
    cases w.suspensionLock with
    | none => rfl
    | some b =>
        obtain ⟨p, htidy, -⟩ := h b
        exact ((hactors b).tidy htidy).2

/-- One actor goes into another phase, and the lock with it; all others
are out of it, before and after. -/
theorem Ordered.pass (h : w.Ordered) (hbefore : ∀ b ≠ a, w.suspensionLock ≠ some b)
    (hafter : ∀ b ≠ a, w'.suspensionLock ≠ some b)
    (hactors : ∀ b ≠ a, w'.actors b = w.actors b) (htidy : (w'.actors a).Tidy p)
    (hlock : w'.suspensionLock = some a ↔ p ≠ .free) : w'.Ordered := by
  intro b
  by_cases hb : b = a
  · subst hb
    exact ⟨p, htidy, hlock⟩
  · rw [hactors b hb]
    exact ⟨.free, h.free (hbefore b hb), fun hb' => absurd hb' (hafter b hb), fun hp => absurd rfl hp⟩

theorem inForce_of_lock (hlock : w.suspensionLock = some a) :
    w.inForce = (w.actors a).suspender? := by
  unfold inForce
  rw [hlock]
  rfl

/-- When nobody else has the lock, what is in force is up to one actor. -/
theorem inForce_of_alone (hother : ∀ b ≠ a, w.suspensionLock ≠ some b)
    (htidy : (w.actors a).Tidy p) (hlock : w.suspensionLock = some a ↔ p ≠ .free) :
    w.inForce = (w.actors a).suspender? := by
  by_cases hp : p = .free
  · subst hp
    rw [htidy.suspender?_eq_none nofun nofun]
    unfold inForce
    cases hholder : w.suspensionLock with
    | none => rfl
    | some b =>
        by_cases hb : b = a
        · exact absurd rfl (hlock.mp (hb ▸ hholder))
        · exact absurd hholder (hother b hb)
  · exact inForce_of_lock (hlock.mpr hp)

theorem inForce_of_unlocked (hlock : w.suspensionLock = none) : w.inForce = none := by
  unfold inForce
  rw [hlock]
  rfl

end Lock

-- ========================================================= every move

/-- The lock goes round in order, and the books are those of what is in
force. -/
structure Sound (w : World) : Prop where
  ordered : w.Ordered
  ledger : w.Ledger w.inForce

theorem sound_fresh (isa : Isa) : ({ isa } : World).Sound where
  ordered a := ⟨.free, ⟨by simp, .inl (.done (.inl rfl))⟩, by simp⟩
  ledger :=
    { numbered := nofun, owned := nofun, past := nofun, present := nofun, distinct := .nil
      flag := nofun, total := rfl, count := nofun }

namespace Sound

variable {w w₁ : World} {a : Nat} {task : Task} {tasks rest : List Task}

/-- A suspension is on behalf of a thread that has been there before. -/
theorem force_le (h : w.Sound) (id : Nat) (hforce : w.inForce = some (some id)) :
    id ≤ w.created := by
  cases hlock : w.suspensionLock with
  | none => rw [inForce_of_unlocked hlock] at hforce; cases hforce
  | some a =>
      rw [inForce_of_lock hlock] at hforce
      unfold Actor.suspender? at hforce
      split at hforce
      · next g _ hguard =>
          injection hforce with hsuspender
          exact h.ledger.past hguard hsuspender
      · injection hforce with hcurrent
        exact h.ledger.current_le hcurrent
      · cases hforce

/-- Nobody's phase changes. -/
theorem keep {w' : World} (h : w.Sound) (hlock : w'.suspensionLock = w.suspensionLock)
    (hactors : ∀ b, (w.actors b).Keeps (w'.actors b)) (hledger : w'.Ledger w.inForce) : w'.Sound := by
  obtain ⟨hordered, hforce⟩ := h.ordered.frame hlock hactors
  refine ⟨hordered, ?_⟩
  rwa [hforce]

/-- An actor goes on with an agenda that fits its phase. -/
theorem setAgenda (h : w.Sound) (hmild : w.Mild w₁) (hactors : w₁.actors = w.actors) {x : Actor}
    (hrecord : x.record = (w.actors a).record) (hx : (w.actors a).Keeps x) :
    (w₁.setActor a x).Sound := by
  have hledger : w₁.Ledger w.inForce := h.ledger.frame hmild fun b => by rw [hactors]; exact ⟨rfl, rfl⟩
  refine h.keep hmild.suspensionLock (fun b => ?_)
    (hledger.setAgenda (by rw [hactors]; exact hrecord) (by rw [hactors]; exact hx.guard))
  rw [setActor_actors, hactors]
  split
  · next hb => rw [hb]; exact hx
  · exact .refl _

/-- An actor whose first task has no part in stopping the world goes on. -/
theorem plain (h : w.Sound) (hagenda : (w.actors a).agenda = task :: rest)
    (hstops : task.stops = false) (hplain : w.Plainly a task tasks w₁) :
    (w₁.setActor a { w₁.actors a with agenda := tasks ++ rest }).Sound := by
  rw [hplain.actors]
  refine h.setAgenda hplain.mild hplain.actors rfl (.ofTidy rfl fun htidy => ?_)
  obtain ⟨hp, hrest⟩ := htidy.rests hagenda hstops
  refine ⟨hp, htidy.guard, ?_⟩
  rcases hrest with hrest | ⟨hwait, rest', rfl, hrest⟩
  · exact .inl (hplain.ahead hp hrest)
  · obtain ⟨rfl, -⟩ := hplain.waited hwait
    exact .inr ⟨rest', rfl, hp, hrest⟩

theorem refused (h : w.Sound) (hagenda : (w.actors a).agenda = task :: rest)
    (hplain : task.isPlain = true) (v : Violation) :
    (w.setActor a { w.actors a with agenda := [], refusal := some v }).Sound := by
  refine h.setAgenda (.refl w) rfl rfl (.ofTidy rfl fun htidy => ?_)
  have hp := (htidy.rests hagenda (Task.stops_of_isPlain hplain)).1
  exact ⟨hp, htidy.guard, .inl (.done hp)⟩

theorem start (h : w.Sound) {c : Command} (hidle : (w.actors a).agenda = [])
    (hguard : c = .resumeAll → (w.actors a).guard.isSome) :
    (w.setActor a { w.actors a with agenda := c.agenda, refusal := none }).Sound := by
  refine h.setAgenda (.refl w) rfl rfl (.ofTidy rfl fun htidy => ?_)
  have hp := htidy.idle hidle
  exact ⟨hp, htidy.guard, .inl (.command hp c fun hc => htidy.guard.mpr (hguard hc))⟩

/-- A thread comes. What is in force hangs on guards alone, and a thread
that comes is none that has asked before. -/
theorem enlist (h : w.Sound) {name : String}
    (hagenda : (w.actors a).agenda = .enlist name :: rest) :
    ((w.enlist a name).setActor a
      { (w.enlist a name).actors a with agenda := [.enter] ++ rest }).Sound := by
  have hactor : (w.enlist a name).actors a
      = { w.actors a with record := some (w.created + 1), attached := true } := if_pos rfl
  refine h.keep rfl (fun b => ?_) ((h.ledger.enlist h.force_le a name).setAgenda rfl rfl)
  rw [setActor_actors, hactor]
  split
  · next hb =>
      rw [hb]
      refine .ofTidy rfl fun htidy => ?_
      obtain ⟨hp, hrest⟩ := htidy.tail hagenda rfl nofun
      exact ⟨hp, htidy.guard, .inl (.plain hp rfl hrest)⟩
  · next hb =>
      have hother : (w.enlist a name).actors b = w.actors b := if_neg hb
      rw [hother]
      exact .refl _

/-- A thread goes. -/
theorem unlist (h : w.Sound) (hagenda : (w.actors a).agenda = .unlist :: rest) {keep : Nat → Bool}
    (hw₁ : w₁ = { w.setActor a { w.actors a with attached := false } with
      listed := w.listed.filter keep }) :
    (w₁.setActor a { w₁.actors a with agenda := [] ++ rest }).Sound := by
  have hledger : (w.setActor a { w.actors a with attached := false }).Ledger w.inForce :=
    h.ledger.setAgenda rfl rfl
  have hlisted := hledger.unlist keep
  rw [setActor_listed, ← hw₁] at hlisted
  have hactor : w₁.actors a = { w.actors a with attached := false } := by
    rw [hw₁]
    exact if_pos rfl
  have hlock : w₁.suspensionLock = w.suspensionLock := by rw [hw₁]; rfl
  refine h.keep hlock (fun b => ?_) (hlisted.setAgenda rfl rfl)
  rw [setActor_actors]
  split
  · next hb =>
      rw [hb, hactor]
      refine .ofTidy rfl fun htidy => ?_
      obtain ⟨hp, hrest⟩ := htidy.tail hagenda rfl nofun
      exact ⟨hp, htidy.guard, .inl hrest⟩
  · next hb =>
      have hother : w₁.actors b = w.actors b := by
        rw [hw₁]
        exact if_neg hb
      rw [hother]
      exact .refl _

-- Stopping the world: only one actor has a part in it, and its guard and
-- its first task say what is in force, before and after.

/-- An actor goes from one phase into the next. -/
theorem pass {w' : World} {p q : Phase} (h : w.Sound) (htidy : (w.actors a).Tidy p)
    (hlock : w.suspensionLock = some a ↔ p ≠ .free) (hfree : w.suspensionLock = none ∨ p ≠ .free)
    (hactors : ∀ b ≠ a, w'.actors b = w.actors b) (htidy' : (w'.actors a).Tidy q)
    (hlock' : w'.suspensionLock = if q = .free then none else some a)
    (hledger : w.Ledger (w.actors a).suspender? → w'.Ledger (w'.actors a).suspender?) : w'.Sound := by
  have hbefore : ∀ b ≠ a, w.suspensionLock ≠ some b := by
    intro b hb hholder
    rcases hfree with hnone | hp
    · rw [hnone] at hholder
      cases hholder
    · rw [hlock.mpr hp] at hholder
      exact hb (Option.some.inj hholder).symm
  have hafter : ∀ b ≠ a, w'.suspensionLock ≠ some b := by
    intro b hb hholder
    rw [hlock'] at hholder
    split at hholder
    · cases hholder
    · exact hb (Option.some.inj hholder).symm
  have hiff : w'.suspensionLock = some a ↔ q ≠ .free := by
    rw [hlock']
    split
    · next hq => exact ⟨nofun, fun hne => absurd hq hne⟩
    · next hq => exact ⟨fun _ => hq, fun _ => rfl⟩
  refine ⟨h.ordered.pass hbefore hafter hactors htidy' hiff, ?_⟩
  rw [inForce_of_alone hafter htidy' hiff]
  apply hledger
  rw [← inForce_of_alone hbefore htidy hlock]
  exact h.ledger

theorem lock (h : w.Sound) (hagenda : (w.actors a).agenda = .lockSuspension :: rest)
    (hlock : w.suspensionLock = none) :
    (({ w with suspensionLock := some a } : World).setActor a
      { w.actors a with agenda := [] ++ rest }).Sound := by
  have hfree : (w.actors a).Tidy .free := h.ordered.free (by rw [hlock]; nofun)
  have hrest : Fits .locked rest := (hfree.fits hagenda rfl).of_lock.2
  have htidy : ({ w.actors a with agenda := [] ++ rest } : Actor).Tidy .locked :=
    ⟨by simp [hfree.guard_eq_none nofun], .inl hrest⟩
  refine h.pass (q := .locked) hfree (by simp [hlock]) (.inl hlock) (fun b hb => if_neg hb) ?_ rfl
    fun hledger => ?_
  · rw [setActor_actors, if_pos rfl]
    exact htidy
  · rw [setActor_actors, if_pos rfl, htidy.suspender?_eq_none nofun nofun]
    rw [hfree.suspender?_eq_none nofun nofun] at hledger
    exact (hledger.setLock _).setAgenda rfl rfl

theorem request (h : w.Sound) (hagenda : (w.actors a).agenda = .requestAll :: rest) :
    ((w.requestAll a).setActor a { (w.requestAll a).actors a with
      agenda := [.awaitStopped (w.others (w.actors a).current)] ++ rest }).Sound := by
  obtain ⟨p, htidy, hlock⟩ := h.ordered a
  obtain ⟨rfl, hrest⟩ := (htidy.fits hagenda rfl).of_request
  have hguard := htidy.guard_eq_none nofun
  obtain ⟨records, hrecords⟩ := w.requestAll_frame a
  have hactors : (w.requestAll a).actors = w.actors := by rw [hrecords]
  have hlock₁ : (w.requestAll a).suspensionLock = w.suspensionLock := by rw [hrecords]
  have hsuspender : ({ w.actors a with agenda := [.awaitStopped (w.others (w.actors a).current)]
      ++ rest } : Actor).suspender? = some (w.actors a).current :=
    Actor.suspender?_of_await hguard rfl
  refine h.pass (q := .asked) htidy hlock (.inr nofun) (fun b hb => ?_) ?_ ?_ fun hledger => ?_
  · rw [setActor_actors, if_neg hb, hactors]
  · rw [setActor_actors, if_pos rfl, hactors]
    exact ⟨by simp [hguard], .inl (.await hrest)⟩
  · rw [setActor_suspensionLock, hlock₁]
    exact hlock.mpr nofun
  · rw [setActor_actors, if_pos rfl, hactors, hsuspender]
    rw [htidy.suspender?_eq_none nofun nofun] at hledger
    exact (hledger.request a).setAgenda (by rw [hactors]) (by rw [hactors])

theorem stopped (h : w.Sound) {targets : List Nat}
    (hagenda : (w.actors a).agenda = .awaitStopped targets :: rest)
    (hw₁ : w₁ = w.setActor a { w.actors a with guard := some ⟨(w.actors a).current, targets⟩ }) :
    (w₁.setActor a { w₁.actors a with agenda := [] ++ rest }).Sound := by
  obtain ⟨p, htidy, hlock⟩ := h.ordered a
  obtain ⟨rfl, hrest⟩ := (htidy.fits hagenda rfl).of_await
  have hactor : w₁.actors a
      = { w.actors a with guard := some ⟨(w.actors a).current, targets⟩ } := by
    rw [hw₁, setActor_actors, if_pos rfl]
  refine h.pass (q := .held) htidy hlock (.inr nofun) (fun b hb => ?_) ?_ ?_ fun hledger => ?_
  · rw [setActor_actors, if_neg hb, hw₁, setActor_actors, if_neg hb]
  · rw [setActor_actors, if_pos rfl, hactor]
    exact ⟨by simp, .inl hrest⟩
  · rw [setActor_suspensionLock, hw₁]
    exact hlock.mpr nofun
  · rw [setActor_actors, if_pos rfl, hactor, Actor.suspender?_of_guard rfl]
    rw [Actor.suspender?_of_await (htidy.guard_eq_none nofun) hagenda] at hledger
    have hledger₁ : w₁.Ledger (some (w.actors a).current) := by
      rw [hw₁]
      refine hledger.setActor (fun id hid => hledger.owned hid) fun g id hg hid => ?_
      cases hg
      exact hledger.current_le hid
    exact hledger₁.setAgenda (by rw [hactor]) (by rw [hactor])

/-- A guard that is given up had made all the requests it takes back. -/
theorem release_ok (h : w.Sound) {g : SuspendGuard} (hguard : (w.actors a).guard = some g) :
    (w.setActor a { w.actors a with guard := none }).releaseAll g.suspender
        = .ok ((w.setActor a { w.actors a with guard := none }).letAllGo g.suspender)
      ∧ ((w.setActor a { w.actors a with guard := none }).letAllGo g.suspender).Ledger none := by
  obtain ⟨p, htidy, hlock⟩ := h.ordered a
  have hheld : p = .held := htidy.guard.mpr (by rw [hguard]; rfl)
  have hledger := h.ledger
  rw [inForce_of_lock (hlock.mpr (by rw [hheld]; nofun)), Actor.suspender?_of_guard hguard] at hledger
  have hledger₀ : (w.setActor a { w.actors a with guard := none }).Ledger (some g.suspender) :=
    hledger.setActor (fun id hid => hledger.owned hid) nofun
  exact hledger₀.release

theorem released (h : w.Sound) {g : SuspendGuard}
    (hagenda : (w.actors a).agenda = .releaseAll :: rest) (hguard : (w.actors a).guard = some g)
    (hw₁ : w₁ = (w.setActor a { w.actors a with guard := none }).letAllGo g.suspender) :
    (w₁.setActor a { w₁.actors a with agenda := [] ++ rest }).Sound := by
  obtain ⟨p, htidy, hlock⟩ := h.ordered a
  obtain ⟨rfl, hrest⟩ := (htidy.fits hagenda rfl).of_release
  have hledger₁ := (h.release_ok hguard).2
  obtain ⟨records, hrecords⟩ :=
    (w.setActor a { w.actors a with guard := none }).letAllGo_frame g.suspender
  rw [← hw₁] at hledger₁ hrecords
  have hactors : ∀ b, w₁.actors b = if b = a then { w.actors a with guard := none } else w.actors b := by
    rw [hrecords]
    exact fun b => setActor_actors
  have htidy₁ : ({ w₁.actors a with agenda := [] ++ rest } : Actor).Tidy .released := by
    rw [hactors, if_pos rfl]
    exact ⟨by simp, .inl hrest⟩
  refine h.pass (q := .released) htidy hlock (.inr nofun) (fun b hb => ?_) ?_ ?_ fun _ => ?_
  · rw [setActor_actors, if_neg hb, hactors, if_neg hb]
  · rw [setActor_actors, if_pos rfl]
    exact htidy₁
  · rw [setActor_suspensionLock, hrecords]
    exact hlock.mpr nofun
  · rw [setActor_actors, if_pos rfl, htidy₁.suspender?_eq_none nofun nofun]
    exact hledger₁.setAgenda rfl rfl

theorem unlock (h : w.Sound) (hagenda : (w.actors a).agenda = .unlockSuspension :: rest) :
    (({ w with suspensionLock := none } : World).setActor a
      { w.actors a with agenda := [] ++ rest }).Sound := by
  obtain ⟨p, htidy, hlock⟩ := h.ordered a
  obtain ⟨rfl, hrest⟩ := (htidy.fits hagenda rfl).of_unlock
  have htidy₁ : ({ w.actors a with agenda := [] ++ rest } : Actor).Tidy .free :=
    ⟨by simp [htidy.guard_eq_none nofun], .inl hrest⟩
  refine h.pass (q := .free) htidy hlock (.inr nofun) (fun b hb => if_neg hb) ?_ rfl fun hledger => ?_
  · rw [setActor_actors, if_pos rfl]
    exact htidy₁
  · rw [setActor_actors, if_pos rfl, htidy₁.suspender?_eq_none nofun nofun]
    rw [htidy.suspender?_eq_none nofun nofun] at hledger
    exact (hledger.setLock none).setAgenda rfl rfl

/-- Every step keeps the books in order. -/
theorem step {w' : World} (h : w.Sound) (hstep : w.step? a = some w') : w'.Sound := by
  obtain ⟨task, rest, hagenda, ⟨tasks, w₁, hdeed, rfl⟩ | ⟨v, w₁, hdeed, rfl⟩⟩ :=
    step?_deed h.ledger.toNumbered hstep
  · cases hdeed with
    | plain hstops hplain => exact h.plain hagenda hstops hplain
    | enlist => exact h.enlist hagenda
    | unlist => exact h.unlist hagenda rfl
    | lock hlock => exact h.lock hagenda hlock
    | request => exact h.request hagenda
    | stopped _ => exact h.stopped hagenda rfl
    | released hguard hreleased =>
        rw [(h.release_ok hguard).1] at hreleased
        exact h.released hagenda hguard (Except.ok.inj hreleased).symm
    | unguarded hguard =>
        obtain ⟨p, htidy, -⟩ := h.ordered a
        have hsome := htidy.guard.mp (htidy.fits hagenda rfl).of_release.1
        rw [hguard] at hsome
        cases hsome
    | unlock => exact h.unlock hagenda
  · cases hdeed with
    | refused hplain => exact h.refused hagenda hplain v
    | unreleased hguard hfailed =>
        rw [(h.release_ok hguard).1] at hfailed
        cases hfailed

theorem move {w' : World} {m : Move} (h : w.Sound) (hmove : w.move? m = some w') : w'.Sound := by
  cases m with
  | step a => exact h.step hmove
  | start a c =>
      obtain ⟨hidle, hguard, rfl⟩ := move?_start hmove
      exact h.start hidle hguard
  | ask id c =>
      cases hmove
      have hmild : w.Mild (w.update id (·.requestCheckpoint c)) :=
        mild_update h.ledger.toNumbered id fun _ => ⟨rfl, rfl, rfl⟩
      refine h.keep hmild.suspensionLock (fun b => ?_) (h.ledger.frame hmild fun b => ?_)
      · rw [update_actors]
        exact .refl _
      · rw [update_actors]
        exact ⟨rfl, rfl⟩
  | arm implicitChecks =>
      cases hmove
      exact h.keep rfl (fun b => .refl _)
        (h.ledger.frame ⟨rfl, rfl, rfl, rfl, fun _ => rel_keeps_refl _⟩ fun b => ⟨rfl, rfl⟩)

end Sound

/-- The books are in order in every world that any order of moves leads
to. -/
theorem Reachable.sound {w : World} (h : Reachable w) : w.Sound := by
  induction h with
  | fresh isa => exact sound_fresh isa
  | move m _ hmove ih => exact ih.move hmove

end World

end Crossing
