import Buildwright.Pool

/-! # What the operations of a pool do

    Pushes, and the start and the end of a task, said by the list of jobs; and what is queued
    after a pool has settled.

    * `Pool.push_of_open`, `pushAll_of_open`, `finish_append_cons`, `take_finish` — operations;
    * `Pool.settleUpTo_spec` — workers let the queue run empty. -/

namespace Buildwright

variable {α : Type}

namespace Work

theorem countAll_cons (t : Work α) (rest : List (Work α)) :
    countAll (t :: rest) = 1 + countAll t.pushes + countAll rest := by
  cases t <;> rfl

theorem countAll_append (l l' : List (Work α)) :
    countAll (l ++ l') = countAll l + countAll l' := by
  induction l with
  | nil => exact (Nat.zero_add _).symm
  | cons t rest ih => rw [List.cons_append, countAll, countAll, ih, Nat.add_assoc]

end Work

namespace Pool

variable {p : Pool α}

theorem push_of_stopped (h : p.stopped = true) (t : Work α) :
    p.push t = { p with jobs := p.jobs ++ [⟨t, .ended (.error .cancelled)⟩] } := by
  rw [push, if_pos h]

theorem push_of_open (h : p.stopped = false) (t : Work α) :
    p.push t =
      { p with jobs := p.jobs ++ [⟨t, .queued⟩], outstanding := p.outstanding + 1 } := by
  rw [push, h]
  rfl

theorem pushAll_of_open (h : p.stopped = false) (tasks : List (Work α)) :
    p.pushAll tasks =
      { p with
        jobs := p.jobs ++ tasks.map fun t => ⟨t, .queued⟩
        outstanding := p.outstanding + tasks.length } := by
  induction tasks generalizing p with
  | nil => simp [pushAll]
  | cons t rest ih =>
      have hrest := ih (p := p.push t) (by rw [push_of_open h]; exact h)
      rw [push_of_open h] at hrest
      rw [pushAll, List.foldl_cons, push_of_open h]
      refine hrest.trans ?_
      simp only [List.map_cons, List.append_assoc, List.singleton_append, List.length_cons]
      congr 1
      omega

theorem modify_append_cons {β : Type} (front back : List β) (b : β) (f : β → β) :
    (front ++ b :: back).modify front.length f = front ++ f b :: back := by
  induction front with
  | nil => rfl
  | cons c rest ih => exact congrArg (c :: ·) ih

/-- The entries before and behind a place. -/
theorem exists_append_of_getElem? {β : Type} {l : List β} {i : Nat} {b : β}
    (h : l[i]? = some b) : ∃ front back, l = front ++ b :: back ∧ front.length = i := by
  obtain ⟨hlt, rfl⟩ := List.getElem?_eq_some_iff.1 h
  refine ⟨l.take i, l.drop (i + 1), ?_, List.length_take_of_le (Nat.le_of_lt hlt)⟩
  rw [List.getElem_cons_drop, List.take_append_drop]

theorem eq_of_isQueued {j : Job α} (h : j.isQueued = true) : j = ⟨j.work, .queued⟩ := by
  obtain ⟨work, state⟩ := j
  cases state with
  | queued => rfl
  | running => cases h
  | ended result => cases h

/-- The job that has been queued longest. -/
theorem nextQueued?_eq_some {i : Nat} (h : p.nextQueued? = some i) :
    ∃ front t back, p.jobs = front ++ ⟨t, .queued⟩ :: back ∧ front.length = i := by
  obtain ⟨hlt, hqueued, -⟩ := List.findIdx?_eq_some_iff_getElem.1 h
  obtain ⟨front, back, hjobs, hlength⟩ :=
    exists_append_of_getElem? (List.getElem?_eq_getElem hlt)
  exact ⟨front, p.jobs[i].work, back, by rwa [← eq_of_isQueued hqueued], hlength⟩

variable {front back : List (Job α)} {w : Work α} {state : JobState α}

theorem setState_append_cons (hjobs : p.jobs = front ++ ⟨w, state⟩ :: back)
    (state' : JobState α) :
    p.setState front.length state' = { p with jobs := front ++ ⟨w, state'⟩ :: back } := by
  rw [setState, hjobs, modify_append_cons]

/-- A task that has been run, with what it has pushed. -/
theorem finish_append_cons (hopen : p.stopped = false)
    (hjobs : p.jobs = front ++ ⟨w, .running⟩ :: back) :
    p.finish front.length = { p with
      jobs := front ++ ⟨w, .ended w.ending⟩ :: (back ++ w.pushes.map fun t => ⟨t, .queued⟩)
      outstanding := p.outstanding + w.pushes.length - 1 } := by
  have hjob : p.jobs[front.length]? = some ⟨w, .running⟩ := by rw [hjobs]; simp
  rw [finish, hjob]
  simp only [pushAll_of_open hopen, hjobs, List.append_assoc, List.cons_append]
  rw [setState_append_cons (show _ = front ++ ⟨w, .running⟩ :: _ from rfl)]

/-- What is not running does not end. -/
theorem finish_eq_self {i : Nat} (h : ∀ t, p.jobs[i]? ≠ some ⟨t, .running⟩) :
    p.finish i = p := by
  rw [finish]
  split
  · next t hjob => exact absurd hjob (h t)
  · rfl

/-- The first job of a free worker, from its start to its end. -/
theorem take_finish (hstarted : p.started = true) (hopen : p.stopped = false)
    (hfree : p.running < p.size) (hnext : p.nextQueued? = some front.length)
    (hjobs : p.jobs = front ++ ⟨w, .queued⟩ :: back) :
    p.take.finish front.length = { p with
      jobs := front ++ ⟨w, .ended w.ending⟩ :: (back ++ w.pushes.map fun t => ⟨t, .queued⟩)
      outstanding := p.outstanding + w.pushes.length - 1 } := by
  have htake : p.take = { p with jobs := front ++ ⟨w, .running⟩ :: back } := by
    rw [take, if_pos (by simp [hstarted, hopen, hfree]), hnext]
    exact setState_append_cons hjobs _
  rw [htake]
  exact finish_append_cons (p := { p with jobs := front ++ ⟨w, .running⟩ :: back }) hopen rfl

/-- How many tasks the queued jobs give rise to. -/
def waiting (p : Pool α) : Nat :=
  Work.countAll ((p.jobs.filter Job.isQueued).map Job.work)

theorem nextQueued?_eq_none (h : p.waiting = 0) : p.nextQueued? = none := by
  refine List.findIdx?_eq_none_iff.2 fun j hj => ?_
  cases hqueued : j.isQueued with
  | false => rfl
  | true =>
      have hmem : j ∈ p.jobs.filter Job.isQueued := List.mem_filter.2 ⟨hj, hqueued⟩
      obtain ⟨l, l', hl⟩ := List.append_of_mem hmem
      rw [waiting, hl, List.map_append, Work.countAll_append, List.map_cons,
        Work.countAll_cons] at h
      omega

/-- Workers that nothing keeps from it let the queue run empty. -/
theorem settleUpTo_spec {n : Nat} (hstarted : p.started = true) (hopen : p.stopped = false)
    (hsize : 0 < p.size) (hrunning : p.running = 0) (hn : p.waiting ≤ n) :
    (p.settleUpTo n).nextQueued? = none ∧ (p.settleUpTo n).running = 0 := by
  induction n generalizing p with
  | zero => exact ⟨nextQueued?_eq_none (Nat.le_zero.1 hn), hrunning⟩
  | succ n ih =>
      rw [settleUpTo]
      cases hnext : p.nextQueued? with
      | none => exact ⟨hnext, hrunning⟩
      | some i =>
          obtain ⟨front, w, back, hjobs, rfl⟩ := nextQueued?_eq_some hnext
          simp only [take_finish hstarted hopen (hrunning ▸ hsize) hnext hjobs]
          refine ih hstarted hopen hsize ?_ ?_
          · have hnone : (w.pushes.map fun t => (⟨t, .queued⟩ : Job α)).countP Job.isRunning = 0 :=
              List.countP_eq_zero.2 fun j hj => by
                obtain ⟨t, -, rfl⟩ := List.mem_map.1 hj
                exact Bool.false_ne_true
            rw [running, hjobs] at hrunning
            simp only [running, List.countP_append, List.countP_cons, hnone, Job.isRunning,
              Bool.false_eq_true, if_false, Nat.add_zero] at hrunning ⊢
            exact hrunning
          · have hall : (w.pushes.map fun t => (⟨t, .queued⟩ : Job α)).filter Job.isQueued =
                w.pushes.map fun t => ⟨t, .queued⟩ :=
              List.filter_eq_self.2 fun j hj => by
                obtain ⟨t, -, rfl⟩ := List.mem_map.1 hj
                rfl
            rw [waiting, hjobs] at hn
            simp only [waiting, List.filter_append, List.filter_cons, hall, Job.isQueued,
              Bool.false_eq_true, if_false, if_true, List.map_append, List.map_cons,
              List.map_map, Function.comp_def, List.map_id', Work.countAll_append,
              Work.countAll_cons] at hn ⊢
            omega

theorem settle_of_none (h : p.nextQueued? = none) : p.settle = p := by
  have hsame : ∀ n, p.settleUpTo n = p := by
    intro n
    cases n with
    | zero => rfl
    | succ n => rw [settleUpTo, h]
  rw [settle]
  split
  · exact hsame _
  · rfl

end Pool

end Buildwright
