import Buildwright.Fault

/-!
# Worker pools

A pool runs tasks, first in, first out, on a fixed number of workers. A task ends with
a value or breaks off, and may push further tasks before. A pool that is stopped
discards what is queued; a pool that is shut down lets the queue run empty first.

## Contents

* `Work`, `Job`, `Pool`;
* `Pool.push`, `Pool.start`, `Pool.take`, `Pool.finish`, `Pool.stop` — single steps;
* `Pool.settle` — all that workers do until nothing is queued;
* `Pool.shutdown`, `Pool.result?`, `Pool.joinAll` — what callers see.
-/

namespace Buildwright

/-- What a worker does: it pushes tasks and then ends with a value, or breaks off with a
    payload that may be a text. -/
inductive Work (α : Type) where
  | returns (value : α) (pushes : List (Work α))
  | panics (payload : Option String) (pushes : List (Work α))

namespace Work

variable {α : Type}

/-- The tasks that a task pushes. -/
def pushes : Work α → List (Work α)
  | returns _ tasks => tasks
  | panics _ tasks => tasks

/-- The text for a payload that is none. -/
def foreignPayload : String := "non-string panic payload"

/-- How a task ends. -/
def ending : Work α → Except TaskFault α
  | returns value _ => .ok value
  | panics payload _ => .error (.panicked (payload.getD foreignPayload))

mutual

/-- The number of tasks that a task gives rise to, itself included. -/
def count : Work α → Nat
  | returns _ tasks => 1 + countAll tasks
  | panics _ tasks => 1 + countAll tasks

/-- The number of tasks that a list of tasks gives rise to. -/
def countAll : List (Work α) → Nat
  | [] => 0
  | t :: ts => count t + countAll ts

end

end Work

/-- How far a task has come. -/
inductive JobState (α : Type) where
  | queued
  | running
  | ended (result : Except TaskFault α)

/-- A task that has been pushed. -/
structure Job (α : Type) where
  work : Work α
  state : JobState α

namespace Job

variable {α : Type}

/-- Whether the job waits in the queue. -/
def isQueued (j : Job α) : Bool :=
  match j.state with
  | .queued => true
  | _ => false

def isRunning (j : Job α) : Bool :=
  match j.state with
  | .running => true
  | _ => false

end Job

/-- A pool with all jobs that were ever pushed, in order. -/
structure Pool (α : Type) where
  size : Nat
  started : Bool := false
  stopped : Bool := false
  jobs : List (Job α) := []
  /-- How many jobs have been queued and not ended. -/
  outstanding : Nat := 0

namespace Pool

variable {α : Type}

/-- A pool with at least one worker. -/
def ofThreads (threads : Nat) : Pool α :=
  { size := max 1 threads }

/-- Push a task. A stopped pool cancels it at once. -/
def push (p : Pool α) (t : Work α) : Pool α :=
  if p.stopped then { p with jobs := p.jobs ++ [⟨t, .ended (.error .cancelled)⟩] }
  else { p with jobs := p.jobs ++ [⟨t, .queued⟩], outstanding := p.outstanding + 1 }

/-- Push tasks one after the other. -/
def pushAll (p : Pool α) (tasks : List (Work α)) : Pool α :=
  tasks.foldl push p

/-- Start the workers. A stopped pool stays stopped. -/
def start (p : Pool α) : Pool α :=
  if p.stopped then p else { p with started := true }

def setState (p : Pool α) (i : Nat) (s : JobState α) : Pool α :=
  { p with jobs := p.jobs.modify i fun j => { j with state := s } }

/-- The number of the job that has been queued longest. -/
def nextQueued? (p : Pool α) : Option Nat :=
  p.jobs.findIdx? Job.isQueued

/-- The number of jobs that workers are at. -/
def running (p : Pool α) : Nat :=
  p.jobs.countP Job.isRunning

/-- A worker that is free takes the job that has been queued longest. -/
def take (p : Pool α) : Pool α :=
  if p.started && !p.stopped && p.running < p.size then
    match p.nextQueued? with
    | some i => p.setState i .running
    | none => p
  else p

/-- A running job pushes its tasks and ends. -/
def finish (p : Pool α) (i : Nat) : Pool α :=
  match p.jobs[i]? with
  | some ⟨t, .running⟩ =>
    let p := (p.pushAll t.pushes).setState i (.ended t.ending)
    { p with outstanding := p.outstanding - 1 }
  | _ => p

/-- Stop the pool: what is queued is cancelled. -/
def stop (p : Pool α) : Pool α :=
  { p with
    stopped := true
    jobs := p.jobs.map fun j =>
      if j.isQueued then { j with state := .ended (.error .cancelled) } else j
    outstanding := p.outstanding - p.jobs.countP Job.isQueued }

/-- Take and finish the next job, `n` times, as long as one is queued. -/
def settleUpTo : Nat → Pool α → Pool α
  | 0, p => p
  | n + 1, p =>
    match p.nextQueued? with
    | some i => settleUpTo n (p.take.finish i)
    | none => p

/-- What the workers of a started pool do until nothing is queued. -/
def settle (p : Pool α) : Pool α :=
  if p.started then
    settleUpTo (Work.countAll ((p.jobs.filter Job.isQueued).map Job.work)) p
  else p

/-- Let the queue run empty and stop the pool. -/
def shutdown (p : Pool α) : Pool α :=
  p.start.settle.stop

/-- How a job has ended. -/
def result? (p : Pool α) (i : Nat) : Option (Except TaskFault α) :=
  match p.jobs[i]? with
  | some ⟨_, .ended r⟩ => some r
  | _ => none

/-- The values of some jobs in order, or the first fault among them. -/
def joinAll (p : Pool α) (jobs : List Nat) : Except TaskFault (List α) :=
  (jobs.filterMap p.result?).mapM id

end Pool

end Buildwright
