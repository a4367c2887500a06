import Buildwright.Proofs.Pool.Progress

/-! # Whole operations of a pool

    When a request is done as a whole, with whole tasks before and after it, a crew does what
    `Pool.push`, `start`, `take`, `finish`, `stop` and `shutdown` do.  So the pools that these
    make are among those that a crew can come to.

    * `Crew.Leads` — steps one after the other;
    * `Crew.Rests` — a crew between two operations;
    * `Pool.Used`, `Crew.exists_run` — the pools that operations make. -/

namespace Buildwright

variable {α : Type}

/-- The pools that a caller and its workers make with whole operations: a pool is stopped or
    shut down when no task is running. -/
inductive Pool.Used (threads : Nat) : Pool α → Prop where
  | made : Pool.Used threads (.ofThreads threads)
  | push {p : Pool α} (hp : Pool.Used threads p) (t : Work α) : Pool.Used threads (p.push t)
  | start {p : Pool α} (hp : Pool.Used threads p) : Pool.Used threads p.start
  | take {p : Pool α} (hp : Pool.Used threads p) : Pool.Used threads p.take
  | finish {p : Pool α} (hp : Pool.Used threads p) (i : Nat) : Pool.Used threads (p.finish i)
  | settle {p : Pool α} (hp : Pool.Used threads p) : Pool.Used threads p.settle
  | stop {p : Pool α} (hp : Pool.Used threads p) (hrunning : p.running = 0) :
      Pool.Used threads p.stop
  | shutdown {p : Pool α} (hp : Pool.Used threads p) (hrunning : p.running = 0) :
      Pool.Used threads p.shutdown

namespace Crew

variable {s t u : Crew α} {e : Option Event} {history : List Event} {threads : Nat}
  {p : Pool α} {caller : Caller α}

/-! ## Steps one after the other -/

/-- Whether steps lead from one state to another. -/
abbrev Leads : Crew α → Crew α → Prop :=
  Relation.ReflTransGen fun s t => ∃ e, Step s e t

theorem leads_of_step (h : Step s e u) (ht : t = u) : Leads s t :=
  ht ▸ .single ⟨e, h⟩

theorem Run.of_leads (h : Run threads history s) (hleads : Leads s t) :
    ∃ history, Run threads history t := by
  induction hleads with
  | refl => exact ⟨_, h⟩
  | tail _ hstep ih =>
      obtain ⟨history, hrun⟩ := ih
      obtain ⟨e, hstep⟩ := hstep
      exact ⟨_, hrun.step hstep⟩

variable {front back : List (Assignment α)} {a : Assignment α} {rest : List (Work α)}

/-- Tasks that a task has put into the queue. -/
def pushedTasks (parent : Option Nat) (tasks : List (Work α)) : List (Assignment α) :=
  tasks.map fun t => ⟨t, parent, .queued⟩

theorem runningCount_pushedTasks (parent : Option Nat) (tasks : List (Work α)) :
    ((pushedTasks parent tasks).map fun a => a.stage.runningCount).sum = 0 := by
  refine List.sum_eq_zero_iff_forall_eq_nat.2 fun n hn => ?_
  obtain ⟨a, ha, rfl⟩ := List.mem_map.1 hn
  obtain ⟨t, -, rfl⟩ := List.mem_map.1 ha
  rfl

theorem leads_turn {front back more : List (Assignment α)} {a : Assignment α}
    {stage : Stage α} {idle outstanding : Nat} (htasks : s.tasks = front ++ a :: back)
    (hturn : Turn s front.length a stage idle outstanding more e)
    (ht : t = { s with
      idle, outstanding, tasks := front ++ { a with stage } :: (back ++ more) }) :
    Leads s t :=
  leads_of_step (.turn htasks hturn) ht

/-- A task of a pool that is not stopped puts what it pushes into the queue. -/
theorem leads_pushes (hopen : s.stopped = false)
    (htasks : s.tasks = front ++ { a with stage := .running (.look rest) } :: back) :
    Leads s { s with
      outstanding := s.outstanding + rest.length
      tasks := front ++ { a with stage := .running (.look []) } ::
        (back ++ pushedTasks (some front.length) rest) } := by
  induction rest generalizing s back with
  | nil =>
      rw [pushedTasks, List.map_nil, List.append_nil, ← htasks]
      exact .refl
  | cons task rest ih =>
      let admitted : Crew α := { s with
        tasks := front ++ { a with stage := .running (.admitted task rest) } :: back }
      let counted : Crew α := { s with
        outstanding := s.outstanding + 1
        tasks := front ++ { a with stage := .running (.counted task rest) } :: back }
      let entered : Crew α := { s with
        outstanding := s.outstanding + 1
        tasks := front ++ { a with stage := .running (.look rest) } ::
          (back ++ [⟨task, some front.length, .queued⟩]) }
      have hadmitted : Leads s admitted :=
        leads_turn htasks (.push rfl (by simp)) (by simp [admitted, Pushing.next, hopen])
      have hcounted : Leads admitted counted :=
        leads_turn rfl (.push rfl (by simp)) (by simp [admitted, counted, Pushing.next])
      have hentered : Leads counted entered :=
        leads_turn rfl (.push rfl (by simp)) (by simp [counted, entered, Pushing.next])
      refine ((hadmitted.trans hcounted).trans hentered).trans ?_
      have hlast := ih (s := entered) hopen rfl
      simp only [entered, List.append_assoc, List.singleton_append] at hlast
      simpa only [pushedTasks, List.map_cons, List.length_cons, Nat.add_assoc,
        Nat.add_comm 1] using hlast

/-! ## Between operations -/

/-- Whether every task waits, is about to push its tasks, or is closed. -/
structure Rests (p : Pool α) (caller : Caller α) (s : Crew α) : Prop where
  pool : s.pool = p
  caller : s.caller = caller
  stages : ∀ a ∈ s.tasks, a.stage = .queued ∨ a.stage = .running (.look a.work.pushes) ∨
    ∃ r, a.stage = .closed r
  idle : s.stopped = false → s.idle + s.running = if s.started then s.size else 0
  stopped : s.stopped = true → s.running = 0

theorem Rests.running_eq (h : Rests p caller s) : p.running = s.running := by
  obtain ⟨rfl, -, hstages, -, -⟩ := h
  have hcount : ∀ tasks : List (Assignment α), (∀ a ∈ tasks, a.stage = .queued ∨
      a.stage = .running (.look a.work.pushes) ∨ ∃ r, a.stage = .closed r) →
      (tasks.map Assignment.job).countP Job.isRunning =
        (tasks.map fun a => a.stage.runningCount).sum := by
    intro tasks
    induction tasks with
    | nil => exact fun _ => rfl
    | cons a rest ih =>
        intro hall
        have hone : (if a.job.isRunning then 1 else 0) = a.stage.runningCount := by
          rw [Assignment.job]
          rcases hall a (List.mem_cons_self ..) with hstage | hstage | ⟨r, hstage⟩ <;>
            rw [hstage] <;> rfl
        rw [List.map_cons, List.countP_cons, List.map_cons, List.sum_cons, hone,
          ih fun b hb => hall b (List.mem_cons_of_mem _ hb), Nat.add_comm]
  exact hcount s.tasks hstages

/-- The tasks of a crew, as its pool has them. -/
theorem tasks_of_jobs {front back : List (Job α)} {j : Job α}
    (h : s.pool.jobs = front ++ j :: back) :
    ∃ front' a back', s.tasks = front' ++ a :: back' ∧ front'.map Assignment.job = front ∧
      a.job = j ∧ back'.map Assignment.job = back := by
  obtain ⟨front', rest, htasks, hfront, hrest⟩ := List.map_eq_append_iff.1 h
  obtain ⟨a, back', rfl, hjob, hback⟩ := List.map_eq_cons_iff.1 hrest
  exact ⟨front', a, back', htasks, hfront, hjob, hback⟩

/-- A task that rests is queued, running or closed as its handle shows it. -/
theorem Rests.stage_of_job (h : Rests p caller s) (ha : a ∈ s.tasks) {w : Work α} :
    (a.job = ⟨w, .queued⟩ → a.work = w ∧ a.stage = .queued) ∧
    (a.job = ⟨w, .running⟩ → a.work = w ∧ a.stage = .running (.look w.pushes)) := by
  refine ⟨fun hjob => ?_, fun hjob => ?_⟩
  all_goals
    obtain ⟨rfl, hstate⟩ := Job.mk.inj hjob
    refine ⟨rfl, ?_⟩
    rcases h.stages a ha with hstage | hstage | ⟨r, hstage⟩ <;> rw [hstage] at hstate ⊢ <;>
      cases hstate

/-- A worker takes a task and starts it. -/
theorem rests_take (h : Rests p caller s) : ∃ t, Leads s t ∧ Rests p.take caller t := by
  rw [Pool.take]
  split
  swap
  · exact ⟨s, .refl, h⟩
  next hcond =>
  cases hnext : p.nextQueued? with
  | none => exact ⟨s, .refl, h⟩
  | some i =>
      simp only [Bool.and_eq_true, Bool.not_eq_true', decide_eq_true_eq, h.running_eq] at hcond
      obtain ⟨front, w, back, hjobs, rfl⟩ := Pool.nextQueued?_eq_some hnext
      simp only [Pool.setState_append_cons hjobs]
      obtain ⟨front, a, back, htasks, rfl, hjob, rfl⟩ := tasks_of_jobs (h.pool ▸ hjobs)
      obtain ⟨rfl, hstage⟩ := (h.stage_of_job (htasks ▸ by simp)).1 hjob
      obtain ⟨rfl, hcaller, hstages, hidle, -⟩ := h
      obtain ⟨⟨hstarted, hopen⟩, hfree⟩ := hcond
      have hsum := hidle hopen
      rw [show s.started = true from hstarted, if_pos rfl] at hsum
      obtain ⟨idle, hone⟩ : ∃ idle, s.idle = idle + 1 :=
        Nat.exists_eq_succ_of_ne_zero (by have : s.running < s.size := hfree; omega)
      let taken : Crew α := { s with
        idle, tasks := front ++ { a with stage := .taken } :: back }
      let begun : Crew α := { s with
        idle, tasks := front ++ { a with stage := .running (.look a.work.pushes) } :: back }
      -- an idle worker takes the task, and finds that the pool is open
      have htaken : Leads s taken :=
        leads_turn htasks (.take hstage hone) (by simp [taken])
      have hbegun : Leads taken begun :=
        leads_turn rfl (.begin rfl hopen) (by simp [taken, begun])
      refine ⟨begun, htaken.trans hbegun, ?_, hcaller, ?_, fun _ => ?_, ?_⟩
      · simp [begun, Crew.pool, Assignment.job, Stage.jobState]
      · have hall := forall_mem_turn (b := { a with stage := .running (.look a.work.pushes) })
          htasks hstages (.inr (.inl rfl)) (List.forall_mem_nil _)
        rwa [List.append_nil] at hall
      · rw [running, htasks] at hsum
        simp [begun, running, hstage, Stage.runningCount, show s.started = true from hstarted]
          at hsum ⊢
        omega
      · exact fun hstop => absurd (hopen.symm.trans hstop) Bool.false_ne_true

/-- A worker ends a task after it has pushed its tasks. -/
theorem rests_finish (h : Rests p caller s) (i : Nat) :
    ∃ t, Leads s t ∧ Rests (p.finish i) caller t := by
  by_cases hjob : ∃ w, p.jobs[i]? = some ⟨w, .running⟩
  swap
  · rw [Pool.finish_eq_self fun t ht => hjob ⟨t, ht⟩]
    exact ⟨s, .refl, h⟩
  obtain ⟨w, hjob⟩ := hjob
  obtain ⟨front, back, hjobs, rfl⟩ := Pool.exists_append_of_getElem? hjob
  -- a pool that a task is running in has not been stopped
  have hpos : 0 < s.running := by
    rw [← h.running_eq, Pool.running, hjobs, List.countP_pos_iff]
    exact ⟨_, List.mem_append_right _ (List.mem_cons_self ..), rfl⟩
  have hopen : s.stopped = false := by
    cases hstopped : s.stopped with
    | false => rfl
    | true => exact absurd (h.stopped hstopped) (Nat.ne_of_gt hpos)
  rw [Pool.finish_append_cons (by rw [← h.pool]; exact hopen) hjobs]
  obtain ⟨front, a, back, htasks, rfl, hjob, rfl⟩ := tasks_of_jobs (h.pool ▸ hjobs)
  obtain ⟨rfl, hstage⟩ := (h.stage_of_job (htasks ▸ by simp)).2 hjob
  obtain ⟨rfl, hcaller, hstages, hidle, -⟩ := h
  let more := pushedTasks (some front.length) a.work.pushes
  let pushed : Crew α := { s with
    outstanding := s.outstanding + a.work.pushes.length
    tasks := front ++ { a with stage := .running (.look []) } :: (back ++ more) }
  let replied : Crew α := { s with
    outstanding := s.outstanding + a.work.pushes.length
    tasks := front ++ { a with stage := .replied a.work.ending } :: (back ++ more) }
  let closed : Crew α := { s with
    idle := s.idle + 1
    outstanding := s.outstanding + a.work.pushes.length - 1
    tasks := front ++ { a with stage := .closed a.work.ending } :: (back ++ more) }
  have hpushed : Leads s pushed :=
    leads_pushes hopen (a := { a with stage := .running (.look []) }) (by rw [htasks, ← hstage])
  have hreplied : Leads pushed replied :=
    leads_turn rfl (.reply rfl) (by simp [pushed, replied])
  have hclosed : Leads replied closed :=
    leads_turn rfl (.release rfl) (by simp [replied, closed])
  refine ⟨closed, (hpushed.trans hreplied).trans hclosed, ?_, hcaller, ?_,
    fun _ => ?_, fun hstop => absurd (hopen.symm.trans hstop) Bool.false_ne_true⟩
  · simp [closed, more, pushedTasks, Crew.pool, Assignment.job, Stage.jobState]
  · refine forall_mem_turn htasks hstages (.inr (.inr ⟨_, rfl⟩)) fun b hb => ?_
    obtain ⟨t, -, rfl⟩ := List.mem_map.1 hb
    exact .inl rfl
  · have hsum := hidle hopen
    have hmore := runningCount_pushedTasks (some front.length) a.work.pushes
    have hone : (Stage.running (.look a.work.pushes)).runningCount = 1 := rfl
    have hzero : (Stage.closed a.work.ending).runningCount = 0 := rfl
    simp only [running, htasks, closed, more, List.map_append, List.map_cons, List.sum_append,
      List.sum_cons, hstage, hone, hzero] at hsum ⊢
    omega

/-! ## Requests -/

/-- A task that nobody is at comes in. -/
theorem Rests.concat (h : Rests p caller s) (outstanding : Nat) {a : Assignment α}
    (hstage : a.stage = .queued ∨ ∃ r, a.stage = .closed r) :
    Rests { p with jobs := p.jobs ++ [a.job], outstanding } caller
      { s with outstanding, tasks := s.tasks ++ [a] } := by
  obtain ⟨rfl, hcaller, hstages, hidle, hstopped⟩ := h
  have hrunning : running { s with outstanding, tasks := s.tasks ++ [a] } = s.running := by
    rcases hstage with hstage | ⟨r, hstage⟩ <;> simp [running, hstage, Stage.runningCount]
  refine ⟨by simp [Crew.pool], hcaller, fun b hb => ?_, ?_, ?_⟩
  · rcases List.mem_append.1 hb with hb | hb
    · exact hstages b hb
    · obtain rfl := List.mem_singleton.1 hb
      exact hstage.imp id .inr
  · rw [hrunning]
    exact hidle
  · rw [hrunning]
    exact hstopped

/-- Another state of the caller makes no difference to the pool. -/
theorem Rests.ask (h : Rests p caller s) (caller' : Caller α) :
    Rests p caller' { s with caller := caller' } :=
  ⟨h.pool, rfl, h.stages, h.idle, h.stopped⟩

/-- The caller pushes a task. -/
theorem rests_push (h : Rests p .free s) (task : Work α) :
    ∃ t, Leads s t ∧ Rests (p.push task) .free t := by
  obtain rfl := h.pool
  let asked : Crew α := { s with caller := .pushing (.look [task]) }
  have hasked : Leads s asked := leads_of_step (.push task h.caller) rfl
  cases hstopped : s.stopped with
  | true =>
      let refused : Crew α := { s with
        tasks := s.tasks ++ [⟨task, none, .closed (.error .cancelled)⟩]
        caller := .pushing (.look []) }
      have hrefused : Leads asked refused :=
        leads_of_step (.advance rfl (by simp)) (by simp [asked, refused, Pushing.next, hstopped])
      refine ⟨{ refused with caller := .free },
        (hasked.trans hrefused).trans (leads_of_step (.pushed rfl) rfl), ?_⟩
      rw [Pool.push_of_stopped hstopped]
      exact (h.concat s.outstanding
        (a := ⟨task, none, .closed (.error .cancelled)⟩) (.inr ⟨_, rfl⟩)).ask .free
  | false =>
      let admitted : Crew α := { s with caller := .pushing (.admitted task []) }
      let counted : Crew α := { s with
        outstanding := s.outstanding + 1, caller := .pushing (.counted task []) }
      let entered : Crew α := { s with
        outstanding := s.outstanding + 1
        tasks := s.tasks ++ [⟨task, none, .queued⟩]
        caller := .pushing (.look []) }
      have hadmitted : Leads asked admitted :=
        leads_of_step (.advance rfl (by simp)) (by simp [asked, admitted, Pushing.next, hstopped])
      have hcounted : Leads admitted counted :=
        leads_of_step (.advance rfl (by simp)) (by simp [admitted, counted, Pushing.next])
      have hentered : Leads counted entered :=
        leads_of_step (.advance rfl (by simp)) (by simp [counted, entered, Pushing.next])
      have hleads := ((hasked.trans hadmitted).trans hcounted).trans hentered
      refine ⟨{ entered with caller := .free }, hleads.trans (leads_of_step (.pushed rfl) rfl), ?_⟩
      rw [Pool.push_of_open hstopped]
      exact (h.concat (s.outstanding + 1) (a := ⟨task, none, .queued⟩)
        (.inl rfl)).ask .free

/-- Workers are hired. -/
theorem leads_hired {workers : Nat} {request : Request}
    (hcaller : s.caller = .hiring workers request) :
    Leads s { s with
      started := s.started || 0 < workers
      idle := s.idle + workers
      caller := .hiring 0 request } := by
  induction workers generalizing s with
  | zero =>
      simp only [← hcaller, Nat.lt_irrefl, decide_false, Bool.or_false, Nat.add_zero]
      exact .refl
  | succ workers ih =>
      let hired : Crew α := { s with
        started := true, idle := s.idle + 1, caller := .hiring workers request }
      have hrest := ih (s := hired) rfl
      refine .trans (leads_of_step (t := hired) (.hire hcaller) rfl) ?_
      simpa [hired, Nat.add_assoc, Nat.add_comm 1] using hrest

/-- Workers are hired for a pool that has none. -/
theorem rests_hired {workers : Nat} {request : Request}
    (h : Rests p (.hiring workers request) s) (hworkers : workers = s.vacancies)
    (hsize : 0 < s.size) : ∃ t, Leads s t ∧ Rests p.start (.hiring 0 request) t := by
  refine ⟨_, leads_hired h.caller, ?_⟩
  subst hworkers
  obtain ⟨rfl, -, hstages, hidle, hstopped⟩ := h
  refine ⟨?_, rfl, hstages, fun hopen => ?_, hstopped⟩
  · cases hstarted : s.started <;> cases hstop : s.stopped <;>
      simp [Pool.start, Crew.pool, vacancies, hstarted, hstop, hsize]
  · have hsum := hidle hopen
    simp only [vacancies, show s.stopped = false from hopen, Bool.or_false, running] at hsum ⊢
    cases hstarted : s.started with
    | false =>
        rw [hstarted, if_neg Bool.false_ne_true] at hsum
        simp [hsize]
        omega
    | true =>
        rw [hstarted] at hsum
        simpa using hsum

/-- The caller starts the pool. -/
theorem rests_start (h : Rests p .free s) (hsize : 0 < s.size) :
    ∃ t, Leads s t ∧ Rests p.start .free t := by
  obtain ⟨t, hleads, ht⟩ := rests_hired (h.ask (.hiring s.vacancies .start)) rfl hsize
  exact ⟨{ t with caller := .free },
    ((leads_of_step (.start h.caller) rfl).trans hleads).trans
      (leads_of_step (.started ht.caller) rfl), ht.ask .free⟩

/-- A task that waits is thrown away. -/
def Assignment.discard (a : Assignment α) : Assignment α :=
  match a.stage with
  | .queued => { a with stage := .closed (.error .cancelled) }
  | _ => a

theorem Assignment.job_discard (a : Assignment α) : a.discard.job =
    if a.job.isQueued then { a.job with state := .ended (.error .cancelled) } else a.job := by
  obtain ⟨work, parent, stage⟩ := a
  cases stage <;> rfl

/-- The caller throws away what waits. -/
theorem leads_discarded {request : Request} (front : List (Assignment α))
    (hcaller : s.caller = .discarding request) (htasks : s.tasks = front ++ back) :
    Leads s { s with
      outstanding := s.outstanding - (back.map Assignment.job).countP Job.isQueued
      tasks := front ++ back.map Assignment.discard } := by
  induction back generalizing s front with
  | nil =>
      obtain rfl : s.tasks = front := htasks.trans (List.append_nil front)
      simp only [List.map_nil, List.append_nil, List.countP_nil, Nat.sub_zero]
      exact .refl
  | cons a rest ih =>
      cases hstage : a.stage with
      | queued =>
          let dropped : Crew α := { s with
            tasks := front ++ { a with stage := .dropped } :: rest }
          let closed : Crew α := { s with
            outstanding := s.outstanding - 1
            tasks := front ++ { a with stage := .closed (.error .cancelled) } :: rest }
          have hdropped : Leads s dropped :=
            leads_turn htasks (.discard hstage hcaller) (by simp [dropped])
          have hclosed : Leads dropped closed :=
            leads_turn rfl (.forget rfl) (by simp [dropped, closed])
          have hrest := ih (s := closed) (front ++ [a.discard]) hcaller
            (by simp [closed, Assignment.discard, hstage])
          refine (hdropped.trans hclosed).trans ?_
          have hjob : a.job.isQueued = true := by rw [Assignment.job, hstage]; rfl
          rw [List.map_cons, List.countP_cons_of_pos hjob, List.map_cons]
          simp only [closed, List.append_assoc, List.singleton_append] at hrest
          rw [Nat.add_comm, ← Nat.sub_sub]
          exact hrest
      | _ =>
          have hrest := ih (front ++ [a]) hcaller (by simpa using htasks)
          have hjob : ¬ a.job.isQueued = true := by
            rw [Assignment.job, hstage]
            exact Bool.false_ne_true
          have hsame : a.discard = a := by rw [Assignment.discard, hstage]
          rw [List.map_cons, List.countP_cons_of_neg hjob, List.map_cons, hsame]
          simpa using hrest

/-- Workers leave when they are told. -/
theorem leads_left {idle : Nat} (hidle : s.idle = idle) (hclosed : s.closed = true) :
    Leads s { s with idle := 0 } := by
  induction idle generalizing s with
  | zero => rw [← hidle]
  | succ idle ih =>
      let left : Crew α := { s with idle }
      exact (leads_of_step (t := left) (.leave hidle hclosed) rfl).trans
        (ih (s := left) rfl hclosed)

/-- A pool that no task is running in is stopped. -/
theorem rests_stopped {request : Request} (h : Rests p (.stopping request) s)
    (hrunning : p.running = 0) : ∃ t, Leads s t ∧ Rests p.stop .free t := by
  have hnone : s.running = 0 := h.running_eq ▸ hrunning
  obtain ⟨rfl, hcaller, hstages, -, -⟩ := h
  let joining : Crew α := { s with
    stopped := true, closed := true, idle := 0, caller := .joining request }
  have hjoining : Leads s joining := by
    have hmarked : Leads s { s with stopped := true, caller := .closing request } :=
      leads_of_step (.mark hcaller) rfl
    have hclosed : Leads { s with stopped := true, caller := .closing request }
        { s with stopped := true, closed := true, caller := .joining request } :=
      leads_of_step (.close rfl) rfl
    exact (hmarked.trans hclosed).trans (leads_left rfl rfl)
  let emptied : Crew α := { joining with
    outstanding := s.outstanding - (s.tasks.map Assignment.job).countP Job.isQueued
    tasks := s.tasks.map Assignment.discard
    caller := .discarding request }
  have hjoined : Leads joining { joining with caller := .discarding request } :=
    leads_of_step (s := joining) (.join rfl rfl hnone) rfl
  have hemptied : Leads { joining with caller := .discarding request } emptied :=
    leads_discarded [] rfl rfl
  have hclosed : ∀ a ∈ emptied.tasks, ∃ r, a.stage = .closed r := by
    intro b hb
    obtain ⟨a, ha, rfl⟩ := List.mem_map.1 hb
    rcases hstages a ha with hstage | hstage | ⟨r, hstage⟩
    · exact ⟨.error .cancelled, by rw [Assignment.discard, hstage]⟩
    · have hzero := runningCount_of_running hnone ha
      rw [hstage] at hzero
      cases hzero
    · exact ⟨r, by rw [Assignment.discard, hstage]; exact hstage⟩
  have hfree : Leads emptied { emptied with caller := .free } := by
    refine leads_of_step (.stopped (show emptied.caller = .discarding request from rfl) ?_ ?_) rfl
    all_goals
      intro a ha hstage
      obtain ⟨r, hr⟩ := hclosed a ha
      exact absurd (hstage.symm.trans hr) nofun
  refine ⟨_, ((hjoining.trans hjoined).trans hemptied).trans hfree, ?_, rfl,
    fun a ha => .inr (.inr (hclosed a ha)), nofun, fun _ => ?_⟩
  · simp only [Crew.pool, Pool.stop, emptied, joining, List.map_map, Function.comp_def,
      Assignment.job_discard]
  · refine List.sum_eq_zero_iff_forall_eq_nat.2 fun n hn => ?_
    obtain ⟨a, ha, rfl⟩ := List.mem_map.1 hn
    obtain ⟨r, hr⟩ := hclosed a ha
    rw [hr]
    rfl

/-- The caller stops the pool. -/
theorem rests_stop (h : Rests p .free s) (hrunning : p.running = 0) :
    ∃ t, Leads s t ∧ Rests p.stop .free t := by
  obtain ⟨t, hleads, ht⟩ := rests_stopped (h.ask (.stopping .stop)) hrunning
  exact ⟨t, (leads_of_step (.stop h.caller) rfl).trans hleads, ht⟩

/-- Workers take and end one task after the other. -/
theorem rests_settleUpTo (n : Nat) (h : Rests p caller s) :
    ∃ t, Leads s t ∧ Rests (p.settleUpTo n) caller t := by
  induction n generalizing p s with
  | zero => exact ⟨s, .refl, h⟩
  | succ n ih =>
      rw [Pool.settleUpTo]
      cases p.nextQueued? with
      | none => exact ⟨s, .refl, h⟩
      | some i =>
          obtain ⟨t, hst, ht⟩ := rests_take h
          obtain ⟨u, htu, hu⟩ := rests_finish ht i
          obtain ⟨v, huv, hv⟩ := ih hu
          exact ⟨v, (hst.trans htu).trans huv, hv⟩

theorem rests_settle (h : Rests p caller s) :
    ∃ t, Leads s t ∧ Rests p.settle caller t := by
  rw [Pool.settle]
  split
  · exact rests_settleUpTo _ h
  · exact ⟨s, .refl, h⟩

/-- In a pool that no task is queued or running in, none is counted. -/
theorem Rests.outstanding_eq (h : Rests p .waiting s)
    (hcount : s.outstanding = s.queued + s.running) (hnext : p.nextQueued? = none)
    (hrunning : p.running = 0) : s.outstanding = 0 := by
  have hnone : s.running = 0 := h.running_eq ▸ hrunning
  obtain ⟨rfl, hcaller, hstages, -, -⟩ := h
  have hqueued : s.queued = 0 := by
    rw [queued, hcaller]
    refine List.sum_eq_zero_iff_forall_eq_nat.2 fun n hn => ?_
    obtain ⟨a, ha, rfl⟩ := List.mem_map.1 hn
    rcases hstages a ha with hstage | hstage | ⟨r, hstage⟩
    · have hjob := List.findIdx?_eq_none_iff.1 hnext a.job (List.mem_map.2 ⟨a, ha, rfl⟩)
      rw [Assignment.job, hstage] at hjob
      cases hjob
    · rw [hstage]
      rfl
    · rw [hstage]
      rfl
  omega

/-- When the workers of a pool that is started have done what they can, nothing waits. -/
theorem Rests.settled (hrun : Run threads history s) (h : Rests p .free s)
    (hrunning : p.running = 0) :
    p.start.settle.nextQueued? = none ∧ p.start.settle.running = 0 := by
  obtain ⟨rfl, hcaller, -, -, -⟩ := h
  cases hstopped : s.stopped with
  | true =>
      -- every task of a pool that has been stopped is closed
      have hretired := (retired_of_stopped hrun hstopped).resolve_left
        (by rw [hcaller]; exact Bool.false_ne_true)
      have hnext : s.pool.nextQueued? = none := by
        refine List.findIdx?_eq_none_iff.2 fun j hj => ?_
        obtain ⟨a, ha, rfl⟩ := List.mem_map.1 hj
        obtain ⟨r, hr⟩ := hretired.tasks a ha
        rw [Assignment.job, hr]
        rfl
      rw [Pool.start, if_pos (show s.pool.stopped = true from hstopped), Pool.settle_of_none hnext]
      exact ⟨hnext, hrunning⟩
  | false =>
      have hopen : s.pool.stopped = false := hstopped
      rw [Pool.start, if_neg (by rw [hopen]; exact Bool.false_ne_true), Pool.settle, if_pos rfl]
      exact Pool.settleUpTo_spec rfl hopen (governed_run hrun).size hrunning (le_refl _)

/-- The caller shuts the pool down. -/
theorem rests_shutdown (hrun : Run threads history s) (h : Rests p .free s)
    (hrunning : p.running = 0) : ∃ t, Leads s t ∧ Rests p.shutdown .free t := by
  obtain ⟨t, hst, ht⟩ :=
    rests_hired (h.ask (.hiring s.vacancies .shutdown)) rfl (governed_run hrun).size
  have hstarted := (leads_of_step (.shutdown h.caller) rfl).trans hst
  have hwaiting := hstarted.trans (leads_of_step (.await ht.caller) rfl)
  obtain ⟨u, htu, hu⟩ := rests_settle (ht.ask .waiting)
  have hleads := hwaiting.trans htu
  obtain ⟨events, hrun'⟩ := hrun.of_leads hleads
  -- the caller goes on when no task is counted
  obtain ⟨hnext, hnone⟩ := h.settled hrun hrunning
  have hzero := hu.outstanding_eq (counted_run hrun') hnext hnone
  obtain ⟨v, huv, hv⟩ := rests_stopped (hu.ask (.stopping .shutdown)) hnone
  exact ⟨v, (hleads.trans (leads_of_step (.proceed hu.caller hzero) rfl)).trans huv, hv⟩

/-- The pools that whole operations make are those of crews between two operations. -/
theorem exists_run (h : Pool.Used threads p) :
    ∃ history s, Run threads history s ∧ Rests p .free s := by
  have hgo {p' : Pool α} {history : List Event} {s : Crew α} (hrun : Run threads history s)
      (hleads : ∃ t, Leads s t ∧ Rests p' .free t) :
      ∃ history t, Run threads history t ∧ Rests p' .free t := by
    obtain ⟨t, hst, ht⟩ := hleads
    obtain ⟨events, hrun'⟩ := hrun.of_leads hst
    exact ⟨events, t, hrun', ht⟩
  induction h with
  | made => exact ⟨[], _, .made, rfl, rfl, nofun, fun _ => rfl, nofun⟩
  | push _ t ih =>
      obtain ⟨_, s, hrun, hs⟩ := ih
      exact hgo hrun (rests_push hs t)
  | start _ ih =>
      obtain ⟨_, s, hrun, hs⟩ := ih
      exact hgo hrun (rests_start hs (governed_run hrun).size)
  | take _ ih =>
      obtain ⟨_, s, hrun, hs⟩ := ih
      exact hgo hrun (rests_take hs)
  | finish _ i ih =>
      obtain ⟨_, s, hrun, hs⟩ := ih
      exact hgo hrun (rests_finish hs i)
  | settle _ ih =>
      obtain ⟨_, s, hrun, hs⟩ := ih
      exact hgo hrun (rests_settle hs)
  | stop _ hrunning ih =>
      obtain ⟨_, s, hrun, hs⟩ := ih
      exact hgo hrun (rests_stop hs hrunning)
  | shutdown _ hrunning ih =>
      obtain ⟨_, s, hrun, hs⟩ := ih
      exact hgo hrun (rests_shutdown hrun hs hrunning)

end Crew

end Buildwright
