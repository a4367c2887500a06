import Buildwright.Pool
import Mathlib.Algebra.GroupWithZero.Nat
import Mathlib.Logic.Relation

/-! # A pool at work

    A pool serves a caller, who starts it, pushes tasks, stops it and shuts it down in any
    order, and its workers, who take tasks and may push further ones.  They share the queue,
    the count of the tasks that are queued or running, and a mark that the pool is stopped.
    Looking at one of these and changing it are steps of their own, and the steps of the
    caller and of the workers come in any order.

    * `Pushing`, `Stage`, `Assignment` — how far a push and a task have come;
    * `Crew` — the caller, the workers and what they share;
    * `Crew.Turn`, `Crew.Step`, `Crew.Run` — what can happen, and what can be told of it. -/

namespace Buildwright

namespace Crew

variable {α : Type}

/-! ## Tasks -/

/-- What a thread does next that pushes tasks one after the other. -/
inductive Pushing (α : Type) where
  /-- Look whether the pool is stopped. -/
  | look (tasks : List (Work α))
  /-- The pool was not stopped; the first task is to be counted. -/
  | admitted (task : Work α) (rest : List (Work α))
  /-- The first task is counted and is to be put into the queue. -/
  | counted (task : Work α) (rest : List (Work α))

/-- How far a task has come. -/
inductive Stage (α : Type) where
  | queued
  /-- A worker has taken the task and has not looked whether the pool is stopped. -/
  | taken
  | running (pushing : Pushing α)
  /-- The task has ended and is still counted. -/
  | replied (reply : Except TaskFault α)
  /-- The task is thrown away and still counted. -/
  | dropped
  | closed (reply : Except TaskFault α)

/-- A task that was pushed, with the number of the task that pushed it, if it was one. -/
structure Assignment (α : Type) where
  work : Work α
  parent : Option Nat
  stage : Stage α

namespace Pushing

/-- The tasks that are not pushed yet. -/
def tasks : Pushing α → List (Work α)
  | look tasks => tasks
  | admitted task rest => task :: rest
  | counted task rest => task :: rest

/-- How many tasks are counted and not in the queue yet. -/
def entering : Pushing α → Nat
  | counted _ _ => 1
  | _ => 0

/-- The next step of a push: where it leads, how many tasks are counted, and the tasks that
    are pushed by it. -/
def next (stopped : Bool) (parent : Option Nat) :
    Pushing α → Pushing α × Nat × List (Assignment α)
  | look [] => (look [], 0, [])
  | look (task :: rest) =>
    if stopped then (look rest, 0, [⟨task, parent, .closed (.error .cancelled)⟩])
    else (admitted task rest, 0, [])
  | admitted task rest => (counted task rest, 1, [])
  | counted task rest => (look rest, 0, [⟨task, parent, .queued⟩])

end Pushing

namespace Stage

/-- How many tasks are on the queue, or on their way to it, at a task. -/
def queuedCount : Stage α → Nat
  | queued => 1
  | running pushing => pushing.entering
  | _ => 0

/-- Whether a task is in someone's hands: those of a worker, or of the caller that throws
    it away. -/
def runningCount : Stage α → Nat
  | taken => 1
  | running _ => 1
  | replied _ => 1
  | dropped => 1
  | _ => 0

/-- Whether a worker is at the task. -/
def isHeld : Stage α → Bool
  | taken => true
  | running _ => true
  | replied _ => true
  | _ => false

/-- Whether the task has been started. -/
def hasBegun : Stage α → Bool
  | running _ => true
  | replied _ => true
  | closed (.error .cancelled) => false
  | closed _ => true
  | _ => false

/-- Whether the task has come to its end. -/
def hasFinished : Stage α → Bool
  | replied _ => true
  | closed (.error .cancelled) => false
  | closed _ => true
  | _ => false

/-- What is left to be pushed by a task that pushes these. -/
def left (pushes : List (Work α)) : Stage α → List (Work α)
  | running pushing => pushing.tasks
  | replied _ => []
  | closed (.error .cancelled) => pushes
  | closed _ => []
  | _ => pushes

/-- The stage as the handle of the task shows it. -/
def jobState : Stage α → JobState α
  | queued => .queued
  | taken => .running
  | running _ => .running
  | replied reply => .ended reply
  | dropped => .ended (.error .cancelled)
  | closed reply => .ended reply

end Stage

/-- The task as its handle shows it. -/
def Assignment.job (a : Assignment α) : Job α :=
  ⟨a.work, a.stage.jobState⟩

/-! ## The crew -/

/-- What a caller asks of a pool. -/
inductive Request where
  | start
  | push
  | stop
  | shutdown
deriving DecidableEq

namespace Request

/-- Whether the request stops the pool in the end. -/
def stops : Request → Bool
  | stop => true
  | shutdown => true
  | _ => false

end Request

/-- What can be told of a run. -/
inductive Event where
  | requested (request : Request)
  /-- A thread for a worker could not be had. -/
  | understaffed
  | begun (task : Nat)
  | finished (task : Nat)
  | returned (request : Request)
deriving DecidableEq

/-- What the caller is at. -/
inductive Caller (α : Type) where
  | free
  /-- So many workers are to be hired yet. -/
  | hiring (workers : Nat) (request : Request)
  | pushing (pushing : Pushing α)
  /-- Nothing is done until no task is counted. -/
  | waiting
  /-- The pool is to be marked as stopped. -/
  | stopping (request : Request)
  /-- The workers are to be told. -/
  | closing (request : Request)
  /-- Nothing is done until every worker has left. -/
  | joining (request : Request)
  /-- What is left in the queue is thrown away. -/
  | discarding (request : Request)

namespace Caller

/-- How many tasks the caller has counted and not put into the queue yet. -/
def queuedCount : Caller α → Nat
  | pushing p => p.entering
  | _ => 0

end Caller

end Crew

/-- A pool with its caller and its workers. -/
structure Crew (α : Type) where
  size : Nat
  /-- Whether a worker has been hired. -/
  started : Bool := false
  stopped : Bool := false
  /-- Whether the workers are told that the pool is stopped. -/
  closed : Bool := false
  /-- How many workers wait for a task. -/
  idle : Nat := 0
  /-- How many tasks are queued or running, as the crew counts them. -/
  outstanding : Nat := 0
  /-- The tasks that were pushed, in order. -/
  tasks : List (Crew.Assignment α) := []
  caller : Crew.Caller α := .free

namespace Crew

variable {α : Type}

/-- How many tasks are in the queue or counted and on their way to it. -/
def queued (s : Crew α) : Nat :=
  (s.tasks.map fun a => a.stage.queuedCount).sum + s.caller.queuedCount

/-- How many tasks are in someone's hands. -/
def running (s : Crew α) : Nat :=
  (s.tasks.map fun a => a.stage.runningCount).sum

/-- How many workers are to be hired when the pool is started. -/
def vacancies (s : Crew α) : Nat :=
  if s.started || s.stopped then 0 else s.size

/-- The tasks that a task has pushed, in order. -/
def pushedBy (s : Crew α) (task : Nat) : List (Work α) :=
  (s.tasks.filter fun a => a.parent = some task).map Assignment.work

/-- What can be seen of the crew as a pool. -/
def pool (s : Crew α) : Pool α where
  size := s.size
  started := s.started
  stopped := s.stopped
  jobs := s.tasks.map Assignment.job
  outstanding := s.outstanding

/-- What can happen to one task: its stage after that, the idle workers, the count, the
    tasks that it has pushed, and what can be told of it. -/
inductive Turn (s : Crew α) (number : Nat) (a : Assignment α) :
    Stage α → Nat → Nat → List (Assignment α) → Option Event → Prop where
  /-- An idle worker takes any of the queued tasks. -/
  | take {idle : Nat} (hstage : a.stage = .queued) (hidle : s.idle = idle + 1) :
      Turn s number a .taken idle s.outstanding [] none
  | begin (hstage : a.stage = .taken) (hopen : s.stopped = false) :
      Turn s number a (.running (.look a.work.pushes)) s.idle s.outstanding []
        (some (.begun number))
  /-- The worker finds the pool stopped, throws the task away, and leaves. -/
  | refuse (hstage : a.stage = .taken) (hstopped : s.stopped = true) :
      Turn s number a .dropped s.idle s.outstanding [] none
  | push {p : Pushing α} (hstage : a.stage = .running p) (hmore : p ≠ .look []) :
      Turn s number a (.running (p.next s.stopped (some number)).1) s.idle
        (s.outstanding + (p.next s.stopped (some number)).2.1)
        (p.next s.stopped (some number)).2.2 none
  /-- The task returns or panics, and its handle has the reply. -/
  | reply (hstage : a.stage = .running (.look [])) :
      Turn s number a (.replied a.work.ending) s.idle s.outstanding []
        (some (.finished number))
  /-- The worker takes the task off the count and is idle again. -/
  | release {r : Except TaskFault α} (hstage : a.stage = .replied r) :
      Turn s number a (.closed r) (s.idle + 1) (s.outstanding - 1) [] none
  /-- The caller throws a queued task away. -/
  | discard {request : Request} (hstage : a.stage = .queued)
      (hcaller : s.caller = .discarding request) :
      Turn s number a .dropped s.idle s.outstanding [] none
  /-- A task that was thrown away is taken off the count. -/
  | forget (hstage : a.stage = .dropped) :
      Turn s number a (.closed (.error .cancelled)) s.idle (s.outstanding - 1) [] none

/-- What can happen to a crew, with what can be told of it. -/
inductive Step : Crew α → Option Event → Crew α → Prop where
  | turn {s : Crew α} {front back more : List (Assignment α)} {a : Assignment α}
      {stage : Stage α} {idle outstanding : Nat} {e : Option Event}
      (htasks : s.tasks = front ++ a :: back)
      (hturn : Turn s front.length a stage idle outstanding more e) :
      Step s e { s with
        idle, outstanding, tasks := front ++ { a with stage } :: (back ++ more) }
  /-- An idle worker that is told so leaves. -/
  | leave {s : Crew α} {idle : Nat} (hidle : s.idle = idle + 1) (hclosed : s.closed = true) :
      Step s none { s with idle }
  | start {s : Crew α} (hcaller : s.caller = .free) :
      Step s (some (.requested .start)) { s with caller := .hiring s.vacancies .start }
  | shutdown {s : Crew α} (hcaller : s.caller = .free) :
      Step s (some (.requested .shutdown)) { s with caller := .hiring s.vacancies .shutdown }
  | push {s : Crew α} (task : Work α) (hcaller : s.caller = .free) :
      Step s (some (.requested .push)) { s with caller := .pushing (.look [task]) }
  | stop {s : Crew α} (hcaller : s.caller = .free) :
      Step s (some (.requested .stop)) { s with caller := .stopping .stop }
  | hire {s : Crew α} {workers : Nat} {request : Request}
      (hcaller : s.caller = .hiring (workers + 1) request) :
      Step s none { s with
        started := true, idle := s.idle + 1, caller := .hiring workers request }
  /-- Without a thread the start ends with a fault. -/
  | giveUp {s : Crew α} {workers : Nat} (hcaller : s.caller = .hiring (workers + 1) .start) :
      Step s (some .understaffed) { s with caller := .free }
  /-- Without a thread the pool is stopped at once. -/
  | cutShort {s : Crew α} {workers : Nat}
      (hcaller : s.caller = .hiring (workers + 1) .shutdown) :
      Step s (some .understaffed) { s with caller := .stopping .shutdown }
  | started {s : Crew α} (hcaller : s.caller = .hiring 0 .start) :
      Step s (some (.returned .start)) { s with caller := .free }
  | await {s : Crew α} (hcaller : s.caller = .hiring 0 .shutdown) :
      Step s none { s with caller := .waiting }
  | proceed {s : Crew α} (hcaller : s.caller = .waiting) (hnone : s.outstanding = 0) :
      Step s none { s with caller := .stopping .shutdown }
  | advance {s : Crew α} {p : Pushing α} (hcaller : s.caller = .pushing p)
      (hmore : p ≠ .look []) :
      Step s none { s with
        outstanding := s.outstanding + (p.next s.stopped none).2.1
        tasks := s.tasks ++ (p.next s.stopped none).2.2
        caller := .pushing (p.next s.stopped none).1 }
  | pushed {s : Crew α} (hcaller : s.caller = .pushing (.look [])) :
      Step s (some (.returned .push)) { s with caller := .free }
  | mark {s : Crew α} {request : Request} (hcaller : s.caller = .stopping request) :
      Step s none { s with stopped := true, caller := .closing request }
  | close {s : Crew α} {request : Request} (hcaller : s.caller = .closing request) :
      Step s none { s with closed := true, caller := .joining request }
  | join {s : Crew α} {request : Request} (hcaller : s.caller = .joining request)
      (hidle : s.idle = 0) (hrunning : s.running = 0) :
      Step s none { s with caller := .discarding request }
  /-- The caller finds the queue empty. -/
  | stopped {s : Crew α} {request : Request} (hcaller : s.caller = .discarding request)
      (hqueue : ∀ a ∈ s.tasks, a.stage ≠ .queued) (hhands : ∀ a ∈ s.tasks, a.stage ≠ .dropped) :
      Step s (some (.returned request)) { s with caller := .free }

/-- The runs of a pool that is made for so many threads. -/
inductive Run (threads : Nat) : List Event → Crew α → Prop where
  | made : Run threads [] { size := max 1 threads }
  | step {history : List Event} {s t : Crew α} {e : Option Event}
      (hrun : Run threads history s) (hstep : Step s e t) :
      Run threads (history ++ e.toList) t

end Crew

end Buildwright
