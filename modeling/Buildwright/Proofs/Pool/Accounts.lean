import Buildwright.Proofs.Pool.Crew
import Mathlib.Algebra.Order.BigOperators.Group.List
import Mathlib.Algebra.Order.Group.Nat

/-! # What the steps of a pool preserve

    * `Crew.counted_step` — the count is that of the tasks that are queued or running;
    * `Crew.Told`, `Crew.told_step` — what was told of a task is how far it has come;
    * `Crew.Kept`, `Crew.kept_step` — replies, and tasks that push others;
    * `Crew.Governed`, `Crew.governed_step` — what the caller is at. -/

namespace Buildwright

namespace Work

variable {α : Type}

/-- A task that is run has a reply of its own. -/
theorem ending_ne_cancelled (t : Work α) : t.ending ≠ .error .cancelled := by
  cases t with
  | returns value pushes => exact nofun
  | panics payload pushes => exact nofun

end Work

namespace Crew

variable {α : Type} {s t : Crew α} {e : Option Event} {history : List Event} {threads : Nat}

/-! ## Pushes -/

namespace Pushing

theorem tasks_next (p : Pushing α) (stopped : Bool) (parent : Option Nat) :
    (p.next stopped parent).2.2.map Assignment.work ++ (p.next stopped parent).1.tasks =
      p.tasks := by
  cases p with
  | look tasks =>
      cases tasks with
      | nil => rfl
      | cons task rest => cases stopped <;> rfl
  | admitted task rest => rfl
  | counted task rest => rfl

/-- A task is counted once before it is in the queue. -/
theorem queuedCount_next (p : Pushing α) (stopped : Bool) (parent : Option Nat) :
    (p.next stopped parent).1.entering +
        ((p.next stopped parent).2.2.map fun a => a.stage.queuedCount).sum =
      p.entering + (p.next stopped parent).2.1 := by
  cases p with
  | look tasks =>
      cases tasks with
      | nil => rfl
      | cons task rest => cases stopped <;> rfl
  | admitted task rest => rfl
  | counted task rest => rfl

/-- A task that is pushed waits in the queue, or is refused by a stopped pool. -/
theorem mem_next {p : Pushing α} {stopped : Bool} {parent : Option Nat} {a : Assignment α}
    (h : a ∈ (p.next stopped parent).2.2) : a.parent = parent ∧
      (a.stage = .queued ∧ 0 < p.entering ∨
        a.stage = .closed (.error .cancelled) ∧ stopped = true) := by
  cases p with
  | look tasks =>
      cases tasks with
      | nil => cases h
      | cons task rest =>
          cases stopped with
          | false => cases h
          | true =>
              obtain rfl := List.mem_singleton.1 h
              exact ⟨rfl, .inr ⟨rfl, rfl⟩⟩
  | admitted task rest => cases h
  | counted task rest =>
      obtain rfl := List.mem_singleton.1 h
      exact ⟨rfl, .inl ⟨rfl, Nat.one_pos⟩⟩

theorem runningCount_next (p : Pushing α) (stopped : Bool) (parent : Option Nat) :
    ((p.next stopped parent).2.2.map fun a => a.stage.runningCount).sum = 0 := by
  refine List.sum_eq_zero_iff_forall_eq_nat.2 fun n hn => ?_
  obtain ⟨a, ha, rfl⟩ := List.mem_map.1 hn
  obtain ⟨-, ⟨hstage, -⟩ | ⟨hstage, -⟩⟩ := mem_next ha <;> rw [hstage] <;> rfl

end Pushing

/-! ## The count -/

/-- Every step keeps the count of the tasks that are queued or running. -/
theorem counted_step (h : s.outstanding = s.queued + s.running) (hstep : Step s e t) :
    t.outstanding = t.queued + t.running := by
  cases hstep with
  | @turn front back more a stage idle outstanding _ htasks hturn =>
      -- the sums change at one task and by what it pushes
      simp only [queued, running, htasks, List.map_append, List.map_cons, List.sum_append,
        List.sum_cons] at h ⊢
      cases hturn with
      | take hstage _ => simp [hstage, Stage.queuedCount, Stage.runningCount] at h ⊢; omega
      | begin hstage _ =>
          simp [hstage, Stage.queuedCount, Stage.runningCount, Pushing.entering] at h ⊢; omega
      | refuse hstage _ => simp [hstage, Stage.queuedCount, Stage.runningCount] at h ⊢; omega
      | @push p hstage _ =>
          have hqueued := p.queuedCount_next s.stopped (some front.length)
          have hrunning := p.runningCount_next s.stopped (some front.length)
          have hentering (q : Pushing α) : (Stage.running q).queuedCount = q.entering := rfl
          have hone (q : Pushing α) : (Stage.running q).runningCount = 1 := rfl
          rw [hstage] at h
          simp only [hentering, hone] at h ⊢
          omega
      | reply hstage =>
          simp [hstage, Stage.queuedCount, Stage.runningCount, Pushing.entering] at h ⊢; omega
      | release hstage => simp [hstage, Stage.queuedCount, Stage.runningCount] at h ⊢; omega
      | discard hstage _ => simp [hstage, Stage.queuedCount, Stage.runningCount] at h ⊢; omega
      | forget hstage => simp [hstage, Stage.queuedCount, Stage.runningCount] at h ⊢; omega
  | @advance p hcaller _ =>
      have hqueued := p.queuedCount_next s.stopped none
      have hrunning := p.runningCount_next s.stopped none
      simp only [queued, running, hcaller, Caller.queuedCount, List.map_append,
        List.sum_append] at h ⊢
      omega
  | leave _ _ => exact h
  | start hcaller | shutdown hcaller | push _ hcaller | stop hcaller | hire hcaller
  | giveUp hcaller | cutShort hcaller | started hcaller | await hcaller | proceed hcaller _
  | pushed hcaller | mark hcaller | close hcaller | join hcaller _ _ | stopped hcaller _ _ =>
      simp only [queued, running, hcaller, Caller.queuedCount, Pushing.entering] at h ⊢
      exact h

/-- Every run keeps the count. -/
theorem counted_run (h : Run threads history s) : s.outstanding = s.queued + s.running := by
  induction h with
  | made => rfl
  | step _ hstep ih => exact counted_step ih hstep

/-- What holds while the caller is at a request. -/
def Caller.Fits (history : List Event) (s : Crew α) : Caller α → Prop
  | free => True
  | hiring workers request =>
    (request = .start ∨ request = .shutdown) ∧ .requested request ∈ history ∧
      (0 < workers → s.stopped = false) ∧
      (workers = 0 → s.started = true ∨ s.stopped = true)
  | pushing p => s.stopped = true → ∃ rest, p = .look rest
  | waiting => .requested .shutdown ∈ history ∧ (s.started = true ∨ s.stopped = true)
  | stopping request => request.stops = true ∧ .requested request ∈ history
  | closing request =>
    request.stops = true ∧ .requested request ∈ history ∧ s.stopped = true
  | joining request =>
    request.stops = true ∧ .requested request ∈ history ∧ s.stopped = true ∧ s.closed = true
  | discarding request =>
    request.stops = true ∧ .requested request ∈ history ∧ s.stopped = true ∧ s.idle = 0 ∧
      ∀ a ∈ s.tasks, a.stage.isHeld = false

/-- Whether the pool is stopped by request only, and the caller where it can be. -/
structure Governed (history : List Event) (s : Crew α) : Prop where
  size : 0 < s.size
  closed : s.closed = true → s.stopped = true
  stopped : s.stopped = true → ∃ request : Request, request.stops = true ∧
    .requested request ∈ history
  caller : s.caller.Fits history s

theorem Governed.fits (h : Governed history s) {caller : Caller α}
    (hcaller : s.caller = caller) : caller.Fits history s :=
  hcaller ▸ h.caller

theorem runningCount_of_running (h : s.running = 0) {a : Assignment α} (ha : a ∈ s.tasks) :
    a.stage.runningCount = 0 :=
  List.sum_eq_zero_iff_forall_eq_nat.1 h _ (List.mem_map.2 ⟨a, ha, rfl⟩)

/-- Nobody is at a task if none is in someone's hands. -/
theorem isHeld_of_running (h : s.running = 0) {a : Assignment α} (ha : a ∈ s.tasks) :
    a.stage.isHeld = false := by
  have hzero := runningCount_of_running h ha
  cases hstage : a.stage with
  | taken | running _ | replied _ => rw [hstage] at hzero; cases hzero
  | _ => rfl

/-- After the workers have left, queued tasks are thrown away and nothing else happens to
    tasks. -/
theorem Turn.of_left {number idle outstanding : Nat} {a : Assignment α} {stage : Stage α}
    {more : List (Assignment α)} (h : Turn s number a stage idle outstanding more e)
    (hidle : s.idle = 0) (hheld : a.stage.isHeld = false) :
    idle = 0 ∧ more = [] ∧ e = none ∧
      (a.stage = .queued ∧ stage = .dropped ∧ (∃ request, s.caller = .discarding request) ∨
        a.stage = .dropped ∧ stage = .closed (.error .cancelled)) := by
  cases h with
  | take hstage hone => exact absurd (hidle.symm.trans hone) (by omega)
  | begin hstage _ | refuse hstage _ | push hstage _ | reply hstage | release hstage =>
      rw [hstage] at hheld
      cases hheld
  | @discard request hstage hcaller =>
      exact ⟨hidle, rfl, rfl, .inl ⟨hstage, rfl, request, hcaller⟩⟩
  | forget hstage => exact ⟨hidle, rfl, rfl, .inr ⟨hstage, rfl⟩⟩

theorem mem_of_tasks {front back : List (Assignment α)} {a : Assignment α}
    (htasks : s.tasks = front ++ a :: back) : a ∈ s.tasks :=
  htasks ▸ List.mem_append_right _ (List.mem_cons_self ..)

/-- What holds of all tasks, of the one that a turn changes, and of those that it pushes. -/
theorem forall_mem_turn {front back more : List (Assignment α)} {a b : Assignment α}
    {P : Assignment α → Prop} (htasks : s.tasks = front ++ a :: back)
    (h : ∀ c ∈ s.tasks, P c) (hb : P b) (hmore : ∀ c ∈ more, P c) :
    ∀ c ∈ front ++ b :: (back ++ more), P c := by
  rw [htasks] at h
  intro c hc
  simp only [List.mem_append, List.mem_cons] at hc
  rcases hc with hc | rfl | hc | hc
  · exact h c (List.mem_append_left _ hc)
  · exact hb
  · exact h c (List.mem_append_right _ (List.mem_cons_of_mem _ hc))
  · exact hmore c hc

/-- What holds of the caller goes on while something happens to a task. -/
theorem Caller.Fits.turn {front back more : List (Assignment α)} {a : Assignment α}
    {stage : Stage α} {idle outstanding : Nat} (h : s.caller.Fits history s)
    (htasks : s.tasks = front ++ a :: back)
    (hturn : Turn s front.length a stage idle outstanding more e) :
    s.caller.Fits (history ++ e.toList) { s with
      idle, outstanding, tasks := front ++ { a with stage } :: (back ++ more) } := by
  have hmono {request : Request} (hmem : .requested request ∈ history) :
      .requested request ∈ history ++ e.toList := List.mem_append_left _ hmem
  cases hcaller : s.caller with
  | free => trivial
  | hiring workers request =>
      rw [hcaller] at h
      exact ⟨h.1, hmono h.2.1, h.2.2⟩
  | pushing p => rw [hcaller] at h; exact h
  | waiting => rw [hcaller] at h; exact ⟨hmono h.1, h.2⟩
  | stopping request => rw [hcaller] at h; exact ⟨h.1, hmono h.2⟩
  | closing request => rw [hcaller] at h; exact ⟨h.1, hmono h.2.1, h.2.2⟩
  | joining request => rw [hcaller] at h; exact ⟨h.1, hmono h.2.1, h.2.2⟩
  | discarding request =>
      rw [hcaller] at h
      obtain ⟨hstops, hmem, hstopped, hidle, hheld⟩ := h
      obtain ⟨rfl, rfl, -, hstage⟩ := hturn.of_left hidle (hheld a (mem_of_tasks htasks))
      refine ⟨hstops, hmono hmem, hstopped, rfl, forall_mem_turn htasks hheld ?_ nofun⟩
      rcases hstage with ⟨-, rfl, -⟩ | ⟨-, rfl⟩ <;> rfl

/-- A pool that is stopped hires nobody. -/
theorem stopped_of_vacancies (h : 0 < s.vacancies) : s.stopped = false := by
  rw [vacancies] at h
  cases hstopped : s.stopped with
  | false => rfl
  | true => simp [hstopped] at h

theorem started_of_vacancies (hsize : 0 < s.size) (h : s.vacancies = 0) :
    s.started = true ∨ s.stopped = true := by
  rw [vacancies] at h
  split at h
  · next hor => exact Bool.or_eq_true_iff.1 hor
  · omega

/-- Every step leaves the caller where it can be. -/
theorem governed_step (h : Governed history s) (hstep : Step s e t) :
    Governed (history ++ e.toList) t := by
  obtain ⟨hsize, hclosed, hstopped, hfits⟩ := h
  have hmono {request : Request} (hmem : .requested request ∈ history) :
      .requested request ∈ history ++ e.toList := List.mem_append_left _ hmem
  have hstopped' (h : s.stopped = true) : ∃ request : Request, request.stops = true ∧
      .requested request ∈ history ++ e.toList := by
    obtain ⟨request, hstops, hmem⟩ := hstopped h
    exact ⟨request, hstops, hmono hmem⟩
  have hlast {x : Event} : x ∈ history ++ (some x).toList :=
    List.mem_append_right _ (List.mem_singleton_self _)
  cases hstep with
  | turn htasks hturn => exact ⟨hsize, hclosed, hstopped', hfits.turn htasks hturn⟩
  | leave hidle hleft =>
      refine ⟨hsize, hclosed, hstopped', ?_⟩
      cases hcaller : s.caller with
      | discarding request =>
          -- a worker that is idle has not left
          rw [hcaller] at hfits
          exact absurd (hidle.symm.trans hfits.2.2.2.1) (by omega)
      | _ =>
          rw [hcaller] at hfits
          rw [Option.toList_none, List.append_nil]
          exact hfits
  | start hcaller | shutdown hcaller =>
      exact ⟨hsize, hclosed, hstopped', by simp, hlast, stopped_of_vacancies,
        started_of_vacancies hsize⟩
  | push task hcaller => exact ⟨hsize, hclosed, hstopped', fun _ => ⟨_, rfl⟩⟩
  | stop hcaller => exact ⟨hsize, hclosed, hstopped', rfl, hlast⟩
  | hire hcaller =>
      rw [hcaller] at hfits
      refine ⟨hsize, hclosed, hstopped', hfits.1, hmono hfits.2.1, fun _ => hfits.2.2.1 (by omega),
        fun _ => .inl rfl⟩
  | giveUp hcaller | started hcaller | pushed hcaller | stopped hcaller _ _ =>
      exact ⟨hsize, hclosed, hstopped', trivial⟩
  | cutShort hcaller =>
      rw [hcaller] at hfits
      exact ⟨hsize, hclosed, hstopped', rfl, hmono hfits.2.1⟩
  | await hcaller =>
      rw [hcaller] at hfits
      exact ⟨hsize, hclosed, hstopped', hmono hfits.2.1, hfits.2.2.2 rfl⟩
  | proceed hcaller hnone =>
      rw [hcaller] at hfits
      exact ⟨hsize, hclosed, hstopped', rfl, hmono hfits.1⟩
  | @advance p hcaller hmore =>
      refine ⟨hsize, hclosed, hstopped', fun hstop => ?_⟩
      rw [hcaller] at hfits
      obtain ⟨rest, rfl⟩ := hfits hstop
      cases rest with
      | nil => exact ⟨_, rfl⟩
      | cons task rest => exact ⟨rest, by rw [show s.stopped = true from hstop]; rfl⟩
  | mark hcaller =>
      rw [hcaller] at hfits
      exact ⟨hsize, fun _ => rfl, fun _ => ⟨_, hfits.1, hmono hfits.2⟩, hfits.1, hmono hfits.2, rfl⟩
  | close hcaller =>
      rw [hcaller] at hfits
      exact ⟨hsize, fun _ => hfits.2.2, hstopped', hfits.1, hmono hfits.2.1, hfits.2.2, rfl⟩
  | join hcaller hidle hrunning =>
      rw [hcaller] at hfits
      exact ⟨hsize, hclosed, hstopped', hfits.1, hmono hfits.2.1, hfits.2.2.1, hidle,
        fun a ha => isHeld_of_running hrunning ha⟩

/-- Every run leaves the caller where it can be. -/
theorem governed_run (h : Run threads history s) : Governed history s := by
  induction h with
  | made => exact ⟨Nat.lt_of_lt_of_le Nat.one_pos (Nat.le_max_left ..), nofun, nofun, trivial⟩
  | step _ hstep ih => exact governed_step ih hstep

/-! ## Replies and pushes -/

/-- Whether the reply of a task is its own, or the task was thrown away by a stopped pool. -/
def Stage.Fits (stopped : Bool) (work : Work α) : Stage α → Prop
  | replied r => r = work.ending
  | dropped => stopped = true
  | closed r => r = work.ending ∨ r = .error .cancelled ∧ stopped = true
  | _ => True

/-- Whether replies are those of the tasks, and tasks have pushed what they are to push. -/
structure Kept (s : Crew α) : Prop where
  replies : ∀ a ∈ s.tasks, a.stage.Fits s.stopped a.work
  parents : ∀ a ∈ s.tasks, ∀ i, a.parent = some i → i < s.tasks.length
  pushes : ∀ i a, s.tasks[i]? = some a →
    s.pushedBy i ++ a.stage.left a.work.pushes = a.work.pushes

theorem Stage.left_closed {pushes : List (Work α)} {r : Except TaskFault α}
    (h : r ≠ .error .cancelled) : (Stage.closed r).left pushes = [] := by
  rcases r with (_ | _) | _
  · rfl
  · exact absurd rfl h
  · rfl

/-- A turn keeps the reply of its task. -/
theorem Turn.fits {number idle outstanding : Nat} {a : Assignment α} {stage : Stage α}
    {more : List (Assignment α)} (h : Turn s number a stage idle outstanding more e)
    (hgoverned : Governed history s) (hfits : a.stage.Fits s.stopped a.work) :
    stage.Fits s.stopped a.work := by
  cases h with
  | take _ _ | begin _ _ | push _ _ => trivial
  | refuse _ hstopped => exact hstopped
  | reply _ => exact rfl
  | release hstage =>
      rw [hstage] at hfits
      exact .inl hfits
  | discard _ hcaller => exact (hgoverned.fits hcaller).2.2.1
  | forget hstage =>
      rw [hstage] at hfits
      exact .inr ⟨rfl, hfits⟩

/-- What a turn pushes is what is left to be pushed less after it. -/
theorem Turn.left_eq {number idle outstanding : Nat} {a : Assignment α} {stage : Stage α}
    {more : List (Assignment α)} (h : Turn s number a stage idle outstanding more e)
    (hfits : a.stage.Fits s.stopped a.work) :
    more.map Assignment.work ++ stage.left a.work.pushes = a.stage.left a.work.pushes := by
  cases h with
  | take hstage _ | begin hstage _ | refuse hstage _ | reply hstage | discard hstage _
  | forget hstage => rw [hstage]; rfl
  | @push p hstage _ => rw [hstage]; exact p.tasks_next s.stopped (some number)
  | release hstage =>
      rw [hstage] at hfits ⊢
      obtain rfl : _ = a.work.ending := hfits
      exact Stage.left_closed a.work.ending_ne_cancelled

/-- What a turn pushes is pushed by its task, and waits or is refused. -/
theorem Turn.mem_more {number idle outstanding : Nat} {a m : Assignment α} {stage : Stage α}
    {more : List (Assignment α)} (h : Turn s number a stage idle outstanding more e)
    (hm : m ∈ more) : m.parent = some number ∧
      (m.stage = .queued ∨ m.stage = .closed (.error .cancelled) ∧ s.stopped = true) := by
  cases h with
  | push _ _ =>
      obtain ⟨hparent, hstage⟩ := Pushing.mem_next hm
      exact ⟨hparent, hstage.imp And.left id⟩
  | _ => cases hm

/-- The tasks after a turn. -/
theorem getElem?_turn {front back more : List (Assignment α)} {a b : Assignment α} (i : Nat) :
    (front ++ b :: (back ++ more))[i]? =
      if i = front.length then some b
      else if i < (front ++ a :: back).length then (front ++ a :: back)[i]?
      else more[i - (front ++ a :: back).length]? := by
  have hset : front ++ b :: (back ++ more) =
      (front ++ a :: back).set front.length b ++ more := by simp
  rw [hset, List.getElem?_append, List.length_set, List.getElem?_set]
  by_cases hi : i = front.length
  · simp [hi]
  · rw [if_neg hi, if_neg (Ne.symm hi)]

theorem pushedBy_turn {front back more : List (Assignment α)} {a : Assignment α}
    (stage : Stage α) (idle outstanding : Nat) (htasks : s.tasks = front ++ a :: back)
    (hmore : ∀ m ∈ more, m.parent = some front.length) (i : Nat) :
    pushedBy { s with
        idle, outstanding, tasks := front ++ { a with stage } :: (back ++ more) } i =
      s.pushedBy i ++ if i = front.length then more.map Assignment.work else [] := by
  have hfilter : more.filter (fun m => m.parent = some i) =
      if i = front.length then more else [] := by
    split
    · next hi => exact List.filter_eq_self.2 fun m hm => by simp [hmore m hm, hi]
    · next hi =>
        exact List.filter_eq_nil_iff.2 fun m hm => by simpa [hmore m hm] using Ne.symm hi
  simp only [pushedBy, htasks, List.filter_append, List.filter_cons, hfilter]
  split <;> split <;> simp

/-- Nobody has pushed for a task that is not there. -/
theorem Kept.pushedBy_eq_nil (h : Kept s) {i : Nat} (hi : s.tasks.length ≤ i) :
    s.pushedBy i = [] := by
  rw [pushedBy, List.map_eq_nil_iff, List.filter_eq_nil_iff]
  intro a ha
  have hlt := h.parents a ha i
  simp only [decide_eq_true_eq]
  intro hparent
  exact absurd (hlt hparent) (Nat.not_lt.2 hi)

theorem Stage.fits_of_pushed {stopped : Bool} {m : Assignment α}
    (h : m.stage = .queued ∨ m.stage = .closed (.error .cancelled) ∧ stopped = true) :
    m.stage.Fits stopped m.work ∧ m.stage.left m.work.pushes = m.work.pushes := by
  rcases h with h | ⟨h, hstopped⟩ <;> rw [h]
  · exact ⟨trivial, rfl⟩
  · exact ⟨.inr ⟨rfl, hstopped⟩, rfl⟩

theorem kept_turn {front back more : List (Assignment α)} {a : Assignment α}
    {stage : Stage α} {idle outstanding : Nat} (h : Kept s) (hgoverned : Governed history s)
    (htasks : s.tasks = front ++ a :: back)
    (hturn : Turn s front.length a stage idle outstanding more e) :
    Kept { s with idle, outstanding, tasks := front ++ { a with stage } :: (back ++ more) } := by
  have ha : a ∈ s.tasks := mem_of_tasks htasks
  have hlength : s.tasks.length ≤ (front ++ { a with stage } :: (back ++ more)).length := by
    simp [htasks]
  have hlt : front.length < s.tasks.length := by simp [htasks]
  have hpushed :=
    pushedBy_turn stage idle outstanding htasks fun m hm => (hturn.mem_more hm).1
  have hparents : ∀ b ∈ front ++ { a with stage } :: (back ++ more),
      ∀ i, b.parent = some i → i < s.tasks.length := by
    refine forall_mem_turn htasks h.parents (h.parents a ha) fun m hm i hparent => ?_
    rw [(hturn.mem_more hm).1] at hparent
    exact Option.some.inj hparent ▸ hlt
  refine ⟨?_, fun b hb i hparent => (hparents b hb i hparent).trans_le hlength, fun i b hb => ?_⟩
  · exact forall_mem_turn htasks h.replies (hturn.fits hgoverned (h.replies a ha))
      fun m hm => (Stage.fits_of_pushed (hturn.mem_more hm).2).1
  · rw [hpushed]
    simp only [getElem?_turn (a := a), ← htasks] at hb
    split at hb
    · next hi =>
        obtain rfl := Option.some.inj hb
        have hold := h.pushes i a (by rw [hi, htasks]; simp)
        rw [if_pos hi, List.append_assoc, hturn.left_eq (h.replies a ha)]
        exact hold
    · next hi =>
        rw [if_neg hi, List.append_nil]
        split at hb
        · exact h.pushes i b hb
        · next hge =>
            -- a task that was just pushed has pushed nothing
            rw [h.pushedBy_eq_nil (Nat.le_of_not_lt hge)]
            exact (Stage.fits_of_pushed (hturn.mem_more (List.mem_of_getElem? hb)).2).2

theorem kept_advance {p : Pushing α} {outstanding : Nat} {caller : Caller α} (h : Kept s) :
    Kept { s with
      outstanding, caller, tasks := s.tasks ++ (p.next s.stopped none).2.2 } := by
  have hstage {m : Assignment α} (hm : m ∈ (p.next s.stopped none).2.2) :
      m.stage = .queued ∨ m.stage = .closed (.error .cancelled) ∧ s.stopped = true :=
    (Pushing.mem_next hm).2.imp And.left id
  have hpushed (i : Nat) : pushedBy { s with
      outstanding, caller, tasks := s.tasks ++ (p.next s.stopped none).2.2 } i =
      s.pushedBy i := by
    have hnone : (p.next s.stopped none).2.2.filter (fun m => m.parent = some i) = [] :=
      List.filter_eq_nil_iff.2 fun m hm => by simp [(Pushing.mem_next hm).1]
    simp only [pushedBy, List.filter_append, hnone, List.append_nil]
  refine ⟨fun b hb => ?_, fun b hb i hparent => ?_, fun i b hb => ?_⟩
  · rcases List.mem_append.1 hb with hb | hb
    · exact h.replies b hb
    · exact (Stage.fits_of_pushed (hstage hb)).1
  · rw [List.length_append]
    rcases List.mem_append.1 hb with hb | hb
    · exact Nat.lt_add_right _ (h.parents b hb i hparent)
    · rw [(Pushing.mem_next hb).1] at hparent
      cases hparent
  · rw [hpushed]
    rcases Nat.lt_or_ge i s.tasks.length with hi | hi
    · rw [List.getElem?_append_left hi] at hb
      exact h.pushes i b hb
    · rw [List.getElem?_append_right hi] at hb
      rw [h.pushedBy_eq_nil hi]
      exact (Stage.fits_of_pushed (hstage (List.mem_of_getElem? hb))).2

/-- Every step keeps replies and pushes. -/
theorem kept_step (h : Kept s) (hgoverned : Governed history s) (hstep : Step s e t) :
    Kept t := by
  cases hstep with
  | turn htasks hturn => exact kept_turn h hgoverned htasks hturn
  | advance _ _ => exact kept_advance h
  | mark _ =>
      refine ⟨fun a ha => ?_, h.parents, h.pushes⟩
      have hfits := h.replies a ha
      cases hstage : a.stage with
      | dropped => exact rfl
      | closed r =>
          rw [hstage] at hfits
          exact hfits.imp id fun hcancelled => ⟨hcancelled.1, rfl⟩
      | replied r => rw [hstage] at hfits; exact hfits
      | _ => trivial
  | _ => exact ⟨h.replies, h.parents, h.pushes⟩

theorem kept_run (h : Run threads history s) : Kept s := by
  induction h with
  | made => exact ⟨nofun, nofun, nofun⟩
  | step hrun hstep ih => exact kept_step ih (governed_run hrun) hstep

/-! ## What is told -/

/-- What holds of a task after a turn, if it holds of none of the tasks that are pushed. -/
theorem any_getElem?_turn {front back more : List (Assignment α)} {a b : Assignment α}
    (P : Assignment α → Bool) (hmore : ∀ m ∈ more, P m = false) (i : Nat) :
    (front ++ b :: (back ++ more))[i]?.any P =
      if i = front.length then P b else (front ++ a :: back)[i]?.any P := by
  rw [getElem?_turn (a := a)]
  split
  · rfl
  · split
    · rfl
    · next hge =>
        rw [List.getElem?_eq_none (Nat.le_of_not_lt hge), Option.any_none, Option.any_eq_false]
        exact fun m hm => by simp [hmore m (List.mem_of_getElem? hm)]

/-- What a turn adds to what holds of its task is the difference that it makes. -/
theorem toNat_any_getElem?_turn {front back more : List (Assignment α)} {a b : Assignment α}
    (P : Assignment α → Bool) (hmore : ∀ m ∈ more, P m = false)
    (hle : (P a).toNat ≤ (P b).toNat) (i : Nat) :
    ((front ++ a :: back)[i]?.any P).toNat +
        (if i = front.length then (P b).toNat - (P a).toNat else 0) =
      ((front ++ b :: (back ++ more))[i]?.any P).toNat := by
  rw [any_getElem?_turn (a := a) P hmore]
  split
  · next hi =>
      have hat : (front ++ a :: back)[front.length]? = some a := by simp
      rw [hi, hat, Option.any_some]
      exact Nat.add_sub_cancel' hle
  · exact Nat.add_zero _

/-- Whether what was told of the tasks is how far they have come. -/
structure Told (history : List Event) (s : Crew α) : Prop where
  begun : ∀ i, history.count (.begun i) = (s.tasks[i]?.any fun a => a.stage.hasBegun).toNat
  finished : ∀ i, history.count (.finished i) =
    (s.tasks[i]?.any fun a => a.stage.hasFinished).toNat

theorem Stage.hasBegun_closed {r : Except TaskFault α} (h : r ≠ .error .cancelled) :
    (Stage.closed r).hasBegun = true ∧ (Stage.closed r).hasFinished = true := by
  rcases r with (_ | _) | _
  · exact ⟨rfl, rfl⟩
  · exact absurd rfl h
  · exact ⟨rfl, rfl⟩

/-- What is told of a turn is what it does to its task. -/
theorem Turn.told {number idle outstanding : Nat} {a : Assignment α} {stage : Stage α}
    {more : List (Assignment α)} (h : Turn s number a stage idle outstanding more e)
    (hfits : a.stage.Fits s.stopped a.work) (i : Nat) :
    (e.toList.count (.begun i) =
      if i = number then stage.hasBegun.toNat - a.stage.hasBegun.toNat else 0) ∧
    (e.toList.count (.finished i) =
      if i = number then stage.hasFinished.toNat - a.stage.hasFinished.toNat else 0) ∧
    a.stage.hasBegun.toNat ≤ stage.hasBegun.toNat ∧
    a.stage.hasFinished.toNat ≤ stage.hasFinished.toNat := by
  cases h with
  | take hstage _ | refuse hstage _ | push hstage _ | discard hstage _ | forget hstage =>
      rw [hstage]
      simp [Stage.hasBegun, Stage.hasFinished]
  | begin hstage _ | reply hstage =>
      rw [hstage]
      by_cases hi : i = number
      · simp [Stage.hasBegun, Stage.hasFinished, hi]
      · simp [Stage.hasBegun, Stage.hasFinished, hi, Ne.symm hi]
  | @release r hstage =>
      rw [hstage] at hfits ⊢
      obtain rfl : r = a.work.ending := hfits
      obtain ⟨hbegun, hfinished⟩ := Stage.hasBegun_closed a.work.ending_ne_cancelled
      rw [hbegun, hfinished]
      simp [Stage.hasBegun, Stage.hasFinished]

theorem told_turn {front back more : List (Assignment α)} {a : Assignment α}
    {stage : Stage α} {idle outstanding : Nat} (h : Told history s) (hkept : Kept s)
    (htasks : s.tasks = front ++ a :: back)
    (hturn : Turn s front.length a stage idle outstanding more e) :
    Told (history ++ e.toList)
      { s with idle, outstanding, tasks := front ++ { a with stage } :: (back ++ more) } := by
  have hfits := hkept.replies a (mem_of_tasks htasks)
  have hnew (m : Assignment α) (hm : m ∈ more) :
      m.stage.hasBegun = false ∧ m.stage.hasFinished = false := by
    rcases (hturn.mem_more hm).2 with hstage | ⟨hstage, -⟩ <;> rw [hstage] <;> exact ⟨rfl, rfl⟩
  refine ⟨fun i => ?_, fun i => ?_⟩
  · obtain ⟨hbegun, -, hle, -⟩ := hturn.told hfits i
    rw [List.count_append, h.begun, hbegun, htasks]
    exact toNat_any_getElem?_turn (a := a) (b := { a with stage }) _
      (fun m hm => (hnew m hm).1) hle i
  · obtain ⟨-, hfinished, -, hle⟩ := hturn.told hfits i
    rw [List.count_append, h.finished, hfinished, htasks]
    exact toNat_any_getElem?_turn (a := a) (b := { a with stage }) _
      (fun m hm => (hnew m hm).2) hle i

/-- Every step that does something to a task tells of it. -/
theorem told_step (h : Told history s) (hkept : Kept s) (hstep : Step s e t) :
    Told (history ++ e.toList) t := by
  cases hstep with
  | turn htasks hturn => exact told_turn h hkept htasks hturn
  | @advance p _ _ =>
      have hnew {P : Stage α → Bool} (hqueued : P .queued = false)
          (hclosed : P (.closed (.error .cancelled)) = false) (i : Nat) :
          (s.tasks ++ (p.next s.stopped none).2.2)[i]?.any (fun a => P a.stage) =
            s.tasks[i]?.any fun a => P a.stage := by
        rw [List.getElem?_append]
        split
        · rfl
        · next hi =>
            rw [List.getElem?_eq_none (Nat.le_of_not_lt hi), Option.any_none, Option.any_eq_false]
            intro m hm
            rcases (Pushing.mem_next (List.mem_of_getElem? hm)).2 with ⟨hstage, -⟩ | ⟨hstage, -⟩
            · simp [hstage, hqueued]
            · simp [hstage, hclosed]
      rw [Option.toList_none, List.append_nil]
      exact ⟨fun i => (h.begun i).trans (congrArg _ (hnew rfl rfl i).symm),
        fun i => (h.finished i).trans (congrArg _ (hnew rfl rfl i).symm)⟩
  | _ =>
      refine ⟨fun i => ?_, fun i => ?_⟩
      · rw [List.count_append, h.begun]
        simp
      · rw [List.count_append, h.finished]
        simp

theorem told_run (h : Run threads history s) : Told history s := by
  induction h with
  | made => exact ⟨fun _ => rfl, fun _ => rfl⟩
  | step hrun hstep ih => exact told_step ih (kept_run hrun) hstep

end Crew

end Buildwright
