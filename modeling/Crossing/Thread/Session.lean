import Crossing.Thread.World

/-
Commands, and one particular way to run them. `Command.agenda` says which
tasks a command consists of; `World.start` lets an actor set out on one.
Nothing here restricts in which order the steps of several actors come.

A session is the orderly case: one command after the other, each run as
far as it gets. When a command has to wait for threads to stop, the others
pass a suspend point; what then waits for a resume goes on with the next
one.
-/
namespace Crossing

-- =========================================================== commands

/-- What an actor can set out to do. -/
inductive Command where
  | attach (name : String)
  | detach
  /-- Publishes a stack pointer and leaves managed code. -/
  | toNative (sp : Nat) (tag : Bool)
  /-- Leaves managed code, the stack pointer being published already. -/
  | leave
  | enter
  | checkSuspend
  | suspendAll
  /-- Ends the suspension that the actor has in force. -/
  | resumeAll
  /-- Turns marking on or off everywhere. -/
  | flip (marking : Bool)
deriving DecidableEq, Repr

namespace Command

def agenda : Command → List Task
  | attach name => [.enlist name]
  | detach => [.depart]
  | toNative sp tag => [.publishFrame sp tag, .leave]
  | leave => [.leave]
  | enter => [.enter]
  | checkSuspend => [.poll]
  | suspendAll => [.lockSuspension, .requestAll]
  | resumeAll => [.releaseAll, .unlockSuspension]
  | flip marking =>
      [.checkPhase marking, .lockSuspension, .requestAll, .flipAll marking, .flipList marking,
        .flipCollector marking, .releaseAll, .unlockSuspension]
        ++ if marking then [] else [.bookCycle]

/-- Whether the command waits for other threads to stop. -/
def stopsOthers : Command → Bool
  | suspendAll | flip _ => true
  | _ => false

end Command

/-- Why an actor cannot come or go. -/
inductive ThreadError where
  | alreadyAttached (thread : Nat)
  | notAttached
deriving DecidableEq, Repr

namespace ThreadError

def message : ThreadError → String
  | alreadyAttached thread =>
      s!"the current OS thread is already attached as thread {thread}"
  | notAttached => "the current OS thread is not attached"

end ThreadError

namespace World

/-- Lets an idle actor set out on a command. -/
def start (w : World) (a : Nat) (c : Command) : Except ThreadError World :=
  let me := w.actors a
  let go := .ok (w.setActor a { me with agenda := c.agenda, refusal := none })
  match c, me.current with
  | .attach _, some id => .error (.alreadyAttached id)
  | .detach, none => .error .notAttached
  | _, _ => go

/-- Queues work for every attached thread. -/
def requestCheckpointAll (w : World) (c : Checkpoint) : World :=
  w.listed.foldl (fun w id => w.update id (·.requestCheckpoint c)) w

-- ========================================================== schedules

/-- The steps of one actor, as many as there are, up to a limit. -/
def run (w : World) (a : Nat) : Nat → World
  | 0 => w
  | limit + 1 =>
      match w.step? a with
      | some w => w.run a limit
      | none => w

/-- More steps than one actor can take while the others stand still: a
few for its command, a few for each thread and for each checkpoint. -/
def stepLimit (w : World) : Nat :=
  let backlog := (List.range w.created).map fun i => ((w.records (i + 1)).map (·.backlog)).getD 0
  64 + 16 * (w.created + backlog.foldr (· + ·) 0)

/-- Lets one actor go on as far as it gets. -/
def settle (w : World) (a : Nat) : World := w.run a w.stepLimit

def isIdle (w : World) (a : Nat) : Bool := (w.actors a).agenda.isEmpty

end World

-- =========================================================== sessions

/-- How a command ended, or that it has not yet. -/
inductive Reply where
  | done
  | attached
  | detached
  | marking
  | marked (objects : Nat)
  | suspended (targets : Nat)
  /-- A thread that had stopped for others goes on. -/
  | resumed
  /-- Who went on, and how each one's command ended. -/
  | woken (replies : List (Nat × Reply))
  | blocked
  | refused (v : Violation)
  | failed (e : ThreadError)

/-- Some workers and one more actor, the helper, which is never attached.
A worker that waits for a resume has the reply it will give on file. -/
structure Session where
  world : World
  workers : Nat
  waiting : List (Nat × Reply) := []

namespace Session

def ofIsa (isa : Isa) (workers : Nat) : Session := { world := { isa }, workers }

/-- The actor behind the workers. -/
def helper (s : Session) : Nat := s.workers

/-- The reply of a command that `a` has completed. -/
def replyOf (w : World) (a : Nat) : Command → Reply
  | .attach _ => .attached
  | .detach => .detached
  | .suspendAll => .suspended (((w.actors a).guard.map (·.targets.length)).getD 0)
  | .flip true => .marking
  | .flip false => .marked 0
  | _ => .done

/-- What an actor replies now, given what it would reply when done. -/
def outcome (w : World) (a : Nat) (reply : Reply) : Reply :=
  match (w.actors a).refusal with
  | some v => .refused v
  | none => if w.isIdle a then reply else .blocked

/-- The idle workers other than `a` that are running managed code. -/
def running (s : Session) (a : Nat) : List Nat :=
  (List.range s.workers).filter fun b =>
    b ≠ a && s.world.isIdle b && ((s.world.own? b).any (·.state = .runnable))

/-- Lets workers pass a suspend point. -/
def passSuspendPoint (w : World) (workers : List Nat) : World :=
  workers.foldl (fun w b => ((w.start b .checkSuspend).toOption.getD w).settle b) w

/-- Lets waiting workers go on, and collects the replies of those that get
to their end. -/
def wake (s : Session) : List (Nat × Reply) × Session :=
  let world := s.waiting.foldl (fun w (b, _) => w.settle b) s.world
  let replies := s.waiting.map fun (b, reply) => (b, outcome world b reply)
  let ended := (List.range s.workers).flatMap fun b =>
    replies.filter fun (b', _) => b' = b && world.isIdle b
  (ended, { s with world, waiting := s.waiting.filter fun (b, _) => !world.isIdle b })

/-- Runs a command as far as it gets. When it waits for others, the running
workers pass a suspend point; after a flip they are on their way again. -/
def perform (s : Session) (a : Nat) (c : Command) : Reply × Session :=
  match s.world.start a c with
  | .error e => (.failed e, s)
  | .ok w =>
      let s := { s with world := w.settle a }
      let s :=
        if c.stopsOthers && !s.world.isIdle a then
          let stopped := s.running a
          let world := (passSuspendPoint s.world stopped).settle a
          { s with world, waiting := s.waiting ++ stopped.map (·, .resumed) }
        else s
      let reply := outcome s.world a (replyOf s.world a c)
      if s.world.isIdle a then
        match c with
        | .flip _ => (reply, s.wake.2)
        | _ => (reply, s)
      else (reply, { s with waiting := s.waiting ++ [(a, replyOf s.world a c)] })

/-- Ends the suspension in force, whoever asked for it. -/
def resume (s : Session) : Reply × Session :=
  match (List.range (s.workers + 1)).find? fun a => (s.world.actors a).guard.isSome with
  | none => (.woken [], s)
  | some a =>
      match s.perform a .resumeAll with
      | (.done, s) => let (replies, s) := s.wake; (.woken replies, s)
      | r => r

/-- Changes the record of a worker, if it has one. -/
def update (s : Session) (a : Nat) (f : ThreadRecord → ThreadRecord) : Session :=
  match (s.world.actors a).record with
  | some id => { s with world := s.world.update id f }
  | none => s

end Session

end Crossing
