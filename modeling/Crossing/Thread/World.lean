import Crossing.Collector
import Crossing.Thread.Record

/-
Threads running side by side. An *actor* is a thread of the operating
system; it may be attached, and then has a record. What an actor is in the
middle of is its agenda, a list of tasks; each task is one indivisible
step: one access to a state word, one wait, one section under a lock. A
step of the world performs the first task of one actor's agenda, and any
order of steps is possible.

Waiting is not a step: a task that waits cannot be performed until what it
waits for holds. An actor whose demand is refused drops its agenda and
remembers why.
-/
namespace Crossing

-- ============================================================== tasks

/-- One indivisible step of an actor. -/
inductive Task where
  -- leaving managed code
  | publishFrame (sp : Nat) (tag : Bool)
  /-- Reads the word: serves pending requests first, or goes on to swap. -/
  | leave
  | leaveSwap (seen : StateWord)
  | dropLock
  -- returning to managed code
  | enter
  | enterSwap (seen : StateWord)
  | takeLock
  -- suspend points
  /-- Reads the requests and serves them until there are none. -/
  | poll
  | takeCheckpoints
  | runCheckpoints
  | requestCheckpoint (thread : Nat) (c : Checkpoint)
  | setState (s : ThreadState)
  | awaitResume
  -- coming and going
  | enlist (name : String)
  | depart
  | unlist
  -- stopping the world
  | lockSuspension
  | requestAll
  | awaitStopped (targets : List Nat)
  | releaseAll
  | unlockSuspension
  -- flipping the read barriers
  | checkPhase (marking : Bool)
  | flipAll (marking : Bool)
  | flipOne (thread : Nat) (marking : Bool)
  | flipList (marking : Bool)
  | flipCollector (marking : Bool)
  | bookCycle
deriving Repr

/-- A suspension in force: who asked for it, and whom it stopped. -/
structure SuspendGuard where
  suspender : Option Nat
  targets : List Nat
deriving DecidableEq, Repr

/-- A thread of the operating system. -/
structure Actor where
  /-- The record it is, or was last, attached with. -/
  record : Option Nat := none
  attached : Bool := false
  agenda : List Task := []
  guard : Option SuspendGuard := none
  /-- Why its last command was refused. -/
  refusal : Option Violation := none

namespace Actor

/-- The record the actor is attached with. -/
def current (a : Actor) : Option Nat := if a.attached then a.record else none

end Actor

-- ============================================================== world

/-- All threads and what they share. Records are numbered from 1 in the
order they were made, and stay readable after their thread has gone. -/
structure World where
  isa : Isa
  records : Nat → Option ThreadRecord := fun _ => none
  created : Nat := 0
  /-- The attached threads, in the order they came. -/
  listed : List Nat := []
  /-- Suspensions in progress or in force. -/
  suspendAllCount : Nat := 0
  /-- The actor that holds the right to suspend. -/
  suspensionLock : Option Nat := none
  /-- The marking state that a new thread starts with. -/
  marking : Bool := false
  /-- Whether suspending also arms the triggers. -/
  implicitChecks : Bool := false
  collector : Collector := {}
  actors : Nat → Actor := fun _ => {}

namespace World

def setRecord (w : World) (t : ThreadRecord) : World :=
  { w with records := fun id => if id = t.id then some t else w.records id }

def setActor (w : World) (a : Nat) (x : Actor) : World :=
  { w with actors := fun b => if b = a then x else w.actors b }

/-- Changes the record with a number, if there is one. -/
def update (w : World) (id : Nat) (f : ThreadRecord → ThreadRecord) : World :=
  match w.records id with
  | some t => w.setRecord (f t)
  | none => w

/-- The record an actor works on. -/
def own? (w : World) (a : Nat) : Option ThreadRecord := (w.actors a).record.bind w.records

/-- Whether a thread cannot be running managed code; one without a record
cannot. -/
def isStopped (w : World) (id : Nat) : Bool := (w.records id).all (·.isStopped)

/-- The listed threads other than `suspender`. -/
def others (w : World) (suspender : Option Nat) : List Nat :=
  w.listed.filter fun id => some id ≠ suspender

-- ============================================================== steps

/-- What performing a task leads to. -/
inductive Progress where
  /-- What the task waits for does not hold yet. -/
  | blocked
  | refused (v : Violation) (w : World)
  /-- Done; `tasks` come before the rest of the agenda. -/
  | next (tasks : List Task) (w : World)

/-- Serving checkpoints. -/
def serveCheckpoints : List Task := [.takeCheckpoints, .runCheckpoints]

/-- Serving a suspend request at a suspend point. -/
def serveSuspension : List Task :=
  [.setState .suspended, .dropLock, .awaitResume, .setState .runnable, .takeLock]

/-- Adds a thread for an actor: with the marking state that is in force,
and one suspend request for every suspension in progress. -/
def enlist (w : World) (a : Nat) (name : String) : World :=
  let id := w.created + 1
  let fresh := ThreadRecord.fresh id name w.isa a
  let t := if w.marking then fresh.flip w.isa true else fresh
  { (w.setRecord (t.requestSuspend w.suspendAllCount)).setActor a
      { w.actors a with record := some id, attached := true } with
    created := id
    listed := w.listed ++ [id] }

/-- Asks every listed thread but the actor's own to stop. -/
def requestAll (w : World) (a : Nat) : World :=
  let targets := w.others (w.actors a).current
  let ask (t : ThreadRecord) : ThreadRecord :=
    let t := t.requestSuspend 1
    if w.implicitChecks then t.armTrigger else t
  targets.foldl (fun w id => w.update id ask) { w with suspendAllCount := w.suspendAllCount + 1 }

/-- Takes one request back from a listed thread; the trigger is restored
with the last one. -/
def releaseOne (w : World) (id : Nat) : Except Violation World :=
  match w.records id with
  | none => .ok w
  | some t => do
      let t ← t.releaseSuspend
      return w.setRecord (if t.suspendCount = 0 then t.disarmTrigger else t)

/-- Takes back one request from every listed thread but the suspender:
those that were stopped, and those that have come since. -/
def releaseAll (w : World) (suspender : Option Nat) : Except Violation World :=
  (w.others suspender).foldlM releaseOne { w with suspendAllCount := w.suspendAllCount - 1 }

/-- A task of actor `a` that works on its own record `t`. -/
def performOwn (w : World) (t : ThreadRecord) : Task → Progress
  | .publishFrame sp tag => .next [] (w.setRecord (t.setFrame sp tag))
  | .leave =>
      if t.state ≠ .runnable then .refused (.mustBeRunnable t.id) w
      else if t.word.isQuiet then .next [.leaveSwap t.word] w
      else .next [.poll, .leave] w
  | .leaveSwap seen =>
      match t.swapState? seen .native with
      | some t => .next [.dropLock] (w.setRecord t)
      | none => .next [.leave] w
  | .dropLock => .next [] (w.setRecord { t with heldLock := false })
  | .enter =>
      if t.state ≠ .native then .refused (.mustBeNative t.id) w
      else if t.word.suspend then .next [.awaitResume, .enter] w
      else if t.word.checkpoint then .next (serveCheckpoints ++ [.enter]) w
      else .next [.enterSwap t.word] w
  | .enterSwap seen =>
      match t.swapState? seen .runnable with
      | some t => .next [.takeLock] (w.setRecord t)
      | none => .next [.enter] w
  | .takeLock => .next [] (w.setRecord { t with heldLock := true })
  | .poll =>
      if t.word.checkpoint then .next (serveCheckpoints ++ [.poll]) w
      else if t.word.suspend then .next (serveSuspension ++ [.poll]) w
      else .next [] w
  | .takeCheckpoints => .next [] (w.setRecord t.takeCheckpoints)
  | .runCheckpoints =>
      match t.taken with
      | [] => .next [] w
      | c :: rest =>
          .next (c.next.map (.requestCheckpoint t.id) ++ [.runCheckpoints])
            (w.setRecord { t with taken := rest, ran := t.ran ++ [c] })
  | .setState s => .next [] (w.setRecord (t.setState s))
  | .awaitResume => if t.word.suspend then .blocked else .next [] w
  | .depart =>
      if t.state = .runnable then
        .next [.publishFrame ((t.frame?.map (·.sp)).getD 0) false, .leave,
          .setState .terminated, .unlist] w
      else .next [.setState .terminated, .unlist] w
  | _ => .next [] w

/-- Performs one task of actor `a`. -/
def perform (w : World) (a : Nat) (task : Task) : Progress :=
  let me := w.actors a
  match task with
  | .requestCheckpoint id c => .next [] (w.update id (·.requestCheckpoint c))
  | .enlist name => .next [.enter] (w.enlist a name)
  | .unlist =>
      .next [] { w.setActor a { me with attached := false } with
        listed := w.listed.filter fun id => some id ≠ me.record }
  | .lockSuspension =>
      if w.suspensionLock.isSome then .blocked else .next [] { w with suspensionLock := some a }
  | .requestAll => .next [.awaitStopped (w.others me.current)] (w.requestAll a)
  | .awaitStopped targets =>
      if targets.all w.isStopped then
        .next [] (w.setActor a { me with guard := some ⟨me.current, targets⟩ })
      else .blocked
  | .releaseAll =>
      match me.guard with
      | none => .next [] w
      | some g =>
          let w := w.setActor a { me with guard := none }
          match w.releaseAll g.suspender with
          | .ok w => .next [] w
          | .error v => .refused v { w with suspensionLock := none }
  | .unlockSuspension => .next [] { w with suspensionLock := none }
  | .checkPhase marking =>
      match w.collector.admits marking with
      | .ok _ => .next [] w
      | .error v => .refused v w
  | .flipAll marking => .next (w.listed.map (.flipOne · marking)) w
  | .flipOne id marking => .next [] (w.update id (·.flip w.isa marking))
  | .flipList marking => .next [] { w with marking }
  | .flipCollector marking => .next [] { w with collector := { w.collector with marking } }
  | .bookCycle => .next [] { w with collector := w.collector.book 0 }
  | task =>
      match w.own? a with
      | some t => w.performOwn t task
      | none => .next [] w

/-- Performs the first task of an actor's agenda. There is no step when
the agenda is empty or the task has to wait. -/
def step? (w : World) (a : Nat) : Option World :=
  match (w.actors a).agenda with
  | [] => none
  | task :: rest =>
      match w.perform a task with
      | .blocked => none
      | .refused v w => some (w.setActor a { w.actors a with agenda := [], refusal := some v })
      | .next tasks w => some (w.setActor a { w.actors a with agenda := tasks ++ rest })

end World

end Crossing
