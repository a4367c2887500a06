import Buildwright.Proofs.Loading.Schedule
import Mathlib.Algebra.GroupWithZero.Nat

/-! # Loading on a pool

    On a pool several tasks run at a time, each of them one errand after the other.  A task
    can break off between two errands; when the pool is stopped, queued tasks are discarded
    and further ones refused.  So that the caller knows when all is done, a task holds a
    ticket from when it is scheduled, and whoever drops the task hands the ticket back: the
    worker that ran it, or the one that discarded or refused it.  A task that was dropped
    before its end is made a fault first.

    * `Errand`, `Stage`, `Ticket` — how far a task has come;
    * `Errand.next` — what a running task does;
    * `Pooled`, `Pooled.Step` — the runs of loading on a pool;
    * `Pooled.Accounted`, `Pooled.accounted_step` — what every step preserves. -/

namespace Buildwright.Loading

variable {layout : Layout} {w : Workspace}

/-! ## Tasks -/

/-- What a running task does next. -/
inductive Errand where
  /-- End at once if there is a fault. -/
  | start
  /-- Enter the package into the catalog, or end if it is there. -/
  | visit
  | begin
  | evaluate
  /-- Declare the rules of calls; the packages `seen` were referred to before. -/
  | declare (calls : List Call) (seen : List String)
  /-- Follow dependencies of a rule, then go on with the calls. -/
  | follow (id : RuleId) (deps : List String) (calls : List Call) (seen : List String)
  /-- Keep other tasks from starting. -/
  | cancel (fault : Fault)
  | record (fault : Fault)

/-- How far a task has come. -/
inductive Stage where
  | queued
  | running (errand : Errand)
  /-- The task is dropped before its end. -/
  | broken
  /-- Other tasks are kept from starting, and the task is not a fault yet. -/
  | marked
  /-- The ticket is to be handed back. -/
  | leaving (completed : Bool)
  | returned (completed : Bool)

namespace Stage

/-- Whether the ticket has not been handed back. -/
def isLive : Stage → Bool
  | returned _ => false
  | _ => true

/-- Whether the task waits or runs. -/
def isActive : Stage → Bool
  | queued => true
  | running _ => true
  | _ => false

/-- Whether the task was dropped before its end and has been made a fault. -/
def isLost : Stage → Bool
  | leaving false => true
  | returned false => true
  | _ => false

/-- How many steps it takes to drop the task. -/
def toDrop : Stage → Nat
  | broken => 3
  | marked => 2
  | leaving _ => 1
  | _ => 0

end Stage

/-- A task that has been scheduled. -/
structure Ticket where
  task : LoadTask
  stage : Stage

/-- What the tasks work on. -/
structure Shared where
  catalog : Catalog := {}
  /-- Whether tasks are kept from starting. -/
  cancelled : Bool := false
  /-- The first fault. -/
  fault : Option Fault := none

namespace Shared

/-- Record a fault, if it is the first. -/
def record (c : Shared) (fault : Fault) : Shared :=
  { c with fault := c.fault.or (some fault) }

def outcome (c : Shared) : Outcome Catalog :=
  match c.fault with
  | some fault => .error fault
  | none => .ok c.catalog

theorem outcome_eq_ok {c : Shared} {catalog : Catalog} (h : c.outcome = .ok catalog) :
    c.fault = none := by
  rw [outcome] at h
  cases hfault : c.fault with
  | none => rfl
  | some fault =>
      rw [hfault] at h
      cases h

theorem record_fault_ne_none (c : Shared) (fault : Fault) : (c.record fault).fault ≠ none := by
  rw [record]
  cases c.fault with
  | none => exact Option.some_ne_none _
  | some _ => exact Option.some_ne_none _

end Shared

/-- What a task runs: the stage after an errand, and the tasks that are to be scheduled. -/
def Errand.next (layout : Layout) (w : Workspace) (task : LoadTask) (c : Shared) :
    Errand → Shared × Stage × List LoadTask
  | start => (c, if c.cancelled then .leaving true else .running .visit, [])
  | visit =>
    if c.catalog.contains task.key then (c, .leaving true, [])
    else ({ c with catalog := c.catalog.visit task.key }, .running .begin, [])
  | begin =>
    if c.catalog.isFresh task.key then
      ({ c with catalog := c.catalog.begin task.key task.file }, .running .evaluate, [])
    else (c, .leaving true, [])
  | evaluate =>
    match w.evaluate task.file with
    | .error (.panicked _) => (c, .broken, [])
    | .error (.fault fault) => (c, .running (.cancel (blame task.referrer fault)), [])
    | .ok calls => (c, .running (.declare calls []), [])
  | declare [] _ => ({ c with catalog := c.catalog.finish task.key }, .leaving true, [])
  | declare (call :: calls) seen =>
    match Declaration.ofCall call task.file with
    | .error fault => (c, .running (.cancel (blame task.referrer fault)), [])
    | .ok declaration =>
      match c.catalog.addRule task.key declaration with
      | .error fault => (c, .running (.cancel (blame task.referrer fault)), [])
      | .ok (id, catalog) =>
        ({ c with catalog }, .running (.follow id declaration.deps calls seen), [])
  | follow _ [] calls seen => (c, .running (.declare calls seen), [])
  | follow id (raw :: deps) calls seen =>
    match PackageRun.follow layout task.key id raw { catalog := c.catalog, seen } with
    | .error fault => (c, .running (.cancel (blame task.referrer fault)), [])
    | .ok run => (c, .running (.follow id deps calls run.seen), run.tasks)
  | cancel fault => ({ c with cancelled := true }, .running (.record fault), [])
  | record fault => (c.record fault, .leaving true, [])

/-- An errand leaves the ticket to the task or has it handed back for a task at its end, and
    takes no fault back. -/
theorem Errand.next_spec (layout : Layout) (w : Workspace) (task : LoadTask) (c : Shared)
    (errand : Errand) :
    (errand.next layout w task c).2.1.isLive = true ∧
      (errand.next layout w task c).2.1.isLost = false ∧
      (c.fault ≠ none → (errand.next layout w task c).1.fault ≠ none) := by
  cases errand with
  | start =>
      rw [next]
      split <;> exact ⟨rfl, rfl, id⟩
  | visit =>
      rw [next]
      split <;> exact ⟨rfl, rfl, id⟩
  | begin =>
      rw [next]
      split <;> exact ⟨rfl, rfl, id⟩
  | evaluate =>
      rw [next]
      split <;> exact ⟨rfl, rfl, id⟩
  | declare calls seen =>
      cases calls with
      | nil => exact ⟨rfl, rfl, id⟩
      | cons call calls =>
          rw [next]
          split
          · exact ⟨rfl, rfl, id⟩
          · split <;> exact ⟨rfl, rfl, id⟩
  | follow rule deps calls seen =>
      cases deps with
      | nil => exact ⟨rfl, rfl, id⟩
      | cons raw deps =>
          rw [next]
          split <;> exact ⟨rfl, rfl, id⟩
  | cancel fault => exact ⟨rfl, rfl, id⟩
  | record fault => exact ⟨rfl, rfl, fun _ => c.record_fault_ne_none fault⟩

/-! ## Runs -/

/-- Loading on a pool between two steps. -/
structure Pooled extends Shared where
  /-- Root files whose tasks are not scheduled yet. -/
  roots : List Path
  /-- How many tickets are out, as the caller counts them. -/
  pending : Nat := 0
  /-- Whether the pool has been stopped. -/
  stopped : Bool := false
  tickets : List Ticket := []
  /-- What loading gives, once the caller has it. -/
  result : Option (Outcome Catalog) := none

namespace Pooled

/-- Schedule a task.  A pool that has been stopped refuses it, unless it was `admitted`
    just before. -/
def schedule (admitted : Bool) (s : Pooled) (task : LoadTask) : Pooled :=
  { s with
    pending := s.pending + 1
    tickets := s.tickets ++ [⟨task, if s.stopped && !admitted then .broken else .queued⟩] }

def scheduleAll (admitted : Bool) (s : Pooled) (tasks : List LoadTask) : Pooled :=
  tasks.foldl (schedule admitted) s

variable {front back : List Ticket} {task : LoadTask}

/-- The steps in which a task is dropped that neither waits nor runs. -/
inductive Drop : Pooled → Pooled → Prop where
  /-- Other tasks are kept from starting. -/
  | mark {s : Pooled} {front back : List Ticket} {task : LoadTask}
      (htickets : s.tickets = front ++ ⟨task, .broken⟩ :: back) :
      Drop s { s with cancelled := true, tickets := front ++ ⟨task, .marked⟩ :: back }
  /-- The task is made a fault. -/
  | record {s : Pooled} {front back : List Ticket} {task : LoadTask}
      (htickets : s.tickets = front ++ ⟨task, .marked⟩ :: back) :
      Drop s { s with
        toShared := s.toShared.record (incomplete task.key)
        tickets := front ++ ⟨task, .leaving false⟩ :: back }
  /-- The ticket is handed back. -/
  | release {s : Pooled} {front back : List Ticket} {task : LoadTask} {completed : Bool}
      (htickets : s.tickets = front ++ ⟨task, .leaving completed⟩ :: back) :
      Drop s { s with
        pending := s.pending - 1
        tickets := front ++ ⟨task, .returned completed⟩ :: back }

/-- The steps of loading on a pool. -/
inductive Step (layout : Layout) (w : Workspace) : Pooled → Pooled → Prop where
  /-- The task of the next root file is scheduled. -/
  | root {s : Pooled} {file : Path} {rest : List Path} {task : LoadTask} (admitted : Bool)
      (hroots : s.roots = file :: rest) (htask : rootTask layout file = .ok task) :
      Step layout w s ({ s with roots := rest }.schedule admitted task)
  /-- The caller ends at a root file outside the project. -/
  | refuse {s : Pooled} {file : Path} {rest : List Path} {fault : Fault}
      (hroots : s.roots = file :: rest) (htask : rootTask layout file = .error fault) :
      Step layout w s { s with roots := [], result := some (.error fault) }
  /-- A worker takes any of the queued tasks. -/
  | take {s : Pooled} {front back : List Ticket} {task : LoadTask}
      (htickets : s.tickets = front ++ ⟨task, .queued⟩ :: back) (hopen : s.stopped = false) :
      Step layout w s { s with tickets := front ++ ⟨task, .running .start⟩ :: back }
  /-- A running task does its errand. -/
  | advance {s : Pooled} {front back : List Ticket} {task : LoadTask} {errand : Errand}
      (admitted : Bool) (htickets : s.tickets = front ++ ⟨task, .running errand⟩ :: back) :
      Step layout w s (scheduleAll admitted
        { s with
          toShared := (errand.next layout w task s.toShared).1
          tickets := front ++ ⟨task, (errand.next layout w task s.toShared).2.1⟩ :: back }
        (errand.next layout w task s.toShared).2.2)
  /-- A running task breaks off. -/
  | panic {s : Pooled} {front back : List Ticket} {task : LoadTask} {errand : Errand}
      (htickets : s.tickets = front ++ ⟨task, .running errand⟩ :: back) :
      Step layout w s { s with tickets := front ++ ⟨task, .broken⟩ :: back }
  | stop {s : Pooled} : Step layout w s { s with stopped := true }
  /-- A queued task of a stopped pool is discarded. -/
  | discard {s : Pooled} {front back : List Ticket} {task : LoadTask}
      (htickets : s.tickets = front ++ ⟨task, .queued⟩ :: back) (hstopped : s.stopped = true) :
      Step layout w s { s with tickets := front ++ ⟨task, .broken⟩ :: back }
  | drop {s t : Pooled} (hdrop : Drop s t) : Step layout w s t
  /-- The caller finds no ticket out and takes what there is. -/
  | finish {s : Pooled} (hroots : s.roots = []) (hpending : s.pending = 0)
      (hresult : s.result = none) : Step layout w s { s with result := some s.outcome }

/-- Whether steps lead from the root files to a state. -/
def Reachable (layout : Layout) (w : Workspace) (roots : List Path) : Pooled → Prop :=
  Relation.ReflTransGen (Step layout w) { roots }

/-! ## What every step preserves -/

/-- Whether the books are right: the tickets that are out are counted, tasks that were dropped
    before their end are a fault, and a good result comes after all tasks have ended. -/
structure Accounted (s : Pooled) : Prop where
  pending : s.pending = s.tickets.countP fun t => t.stage.isLive
  lost : ∀ t ∈ s.tickets, t.stage.isLost = true → s.fault ≠ none
  result : ∀ c, s.result = some (.ok c) →
    s.roots = [] ∧ ∀ t ∈ s.tickets, t.stage = .returned true

variable {s t : Pooled} {stage stage' : Stage} {roots : List Path}

theorem accounted_start (roots : List Path) : Accounted { roots } where
  pending := rfl
  lost _ ht := absurd ht List.not_mem_nil
  result _ h := absurd h nofun

/-- As long as a ticket is out there is no good result. -/
theorem Accounted.result_ne (h : Accounted s)
    (htickets : s.tickets = front ++ ⟨task, stage⟩ :: back)
    (hlive : stage.isLive = true) (c : Catalog) : s.result ≠ some (.ok c) := by
  intro hresult
  have hreturned := (h.result c hresult).2 ⟨task, stage⟩ (htickets ▸ List.mem_append_right _
    (List.mem_cons_self ..))
  obtain rfl : stage = .returned true := hreturned
  cases hlive

/-- A change of one task that leaves its ticket out. -/
theorem Accounted.change (h : Accounted s) {shared : Shared}
    (htickets : s.tickets = front ++ ⟨task, stage⟩ :: back) (hlive : stage.isLive = true)
    (hlive' : stage'.isLive = true) (hlost : stage'.isLost = true → shared.fault ≠ none)
    (hfault : s.fault ≠ none → shared.fault ≠ none) :
    Accounted { s with toShared := shared, tickets := front ++ ⟨task, stage'⟩ :: back } where
  pending := by
    rw [h.pending, htickets]
    simp only [List.countP_append, List.countP_cons, hlive, hlive']
  lost := by
    intro t ht hbroken
    rcases List.mem_append.1 ht with ht | ht
    · exact hfault (h.lost t (htickets ▸ List.mem_append_left _ ht) hbroken)
    · rcases List.mem_cons.1 ht with rfl | ht
      · exact hlost hbroken
      · exact hfault (h.lost t (htickets ▸ List.mem_append_right _ (List.mem_cons_of_mem _ ht))
          hbroken)
  result c hresult := absurd hresult (h.result_ne htickets hlive c)

/-- A task that is scheduled gets a ticket. -/
theorem Accounted.schedule (h : Accounted s) (admitted : Bool) (task : LoadTask)
    (hresult : ∀ c, s.result ≠ some (.ok c)) : Accounted (s.schedule admitted task) where
  pending := by
    have hlive : (if s.stopped && !admitted then Stage.broken else .queued).isLive = true := by
      split <;> rfl
    simp only [Pooled.schedule, List.countP_append, List.countP_singleton, hlive, if_true,
      h.pending]
  lost := by
    intro t ht hbroken
    rcases List.mem_append.1 ht with ht | ht
    · exact h.lost t ht hbroken
    · have hkept : (if s.stopped && !admitted then Stage.broken else .queued).isLost = false := by
        split <;> rfl
      obtain rfl := List.mem_singleton.1 ht
      rw [hkept] at hbroken
      cases hbroken
  result c hgood := absurd hgood (hresult c)

theorem Accounted.scheduleAll (h : Accounted s) (admitted : Bool) (tasks : List LoadTask)
    (hresult : ∀ c, s.result ≠ some (.ok c)) : Accounted (s.scheduleAll admitted tasks) := by
  induction tasks generalizing s with
  | nil => exact h
  | cons task rest ih => exact ih (h.schedule admitted task hresult) hresult

/-- The ticket that is handed back was counted. -/
theorem Accounted.pending_pos (h : Accounted s)
    (htickets : s.tickets = front ++ ⟨task, stage⟩ :: back) (hlive : stage.isLive = true) :
    0 < s.pending := by
  rw [h.pending, htickets, List.countP_pos_iff]
  exact ⟨_, List.mem_append_right _ (List.mem_cons_self ..), hlive⟩

/-- Handing a ticket back takes it from the count. -/
theorem Accounted.release (h : Accounted s) {completed : Bool}
    (htickets : s.tickets = front ++ ⟨task, .leaving completed⟩ :: back) :
    Accounted { s with
      pending := s.pending - 1
      tickets := front ++ ⟨task, .returned completed⟩ :: back } where
  pending := by
    simp only [h.pending, htickets, List.countP_append, List.countP_cons, Stage.isLive, if_true,
      Bool.false_eq_true, if_false]
    omega
  lost := by
    intro t ht hbroken
    rcases List.mem_append.1 ht with ht | ht
    · exact h.lost t (htickets ▸ List.mem_append_left _ ht) hbroken
    · rcases List.mem_cons.1 ht with rfl | ht
      · refine h.lost ⟨task, .leaving completed⟩
          (htickets ▸ List.mem_append_right _ (List.mem_cons_self ..)) ?_
        cases completed with
        | true => cases hbroken
        | false => rfl
      · exact h.lost t (htickets ▸ List.mem_append_right _ (List.mem_cons_of_mem _ ht)) hbroken
  result c hresult := absurd hresult (h.result_ne htickets rfl c)

/-- When no ticket is out, every task has ended, and without a fault none was lost. -/
theorem Accounted.stage_eq (h : Accounted s) (hpending : s.pending = 0) (hnone : s.fault = none)
    {t : Ticket} (ht : t ∈ s.tickets) : t.stage = .returned true := by
  rw [h.pending, List.countP_eq_zero] at hpending
  have hreturned := hpending t ht
  have hkept := h.lost t ht
  obtain ⟨task, stage⟩ := t
  cases stage with
  | returned completed =>
      cases completed with
      | true => rfl
      | false => exact absurd hnone (hkept rfl)
  | _ => exact absurd rfl hreturned

theorem accounted_drop (h : Accounted s) (hdrop : Drop s t) : Accounted t := by
  cases hdrop with
  | mark htickets => exact h.change htickets rfl rfl nofun id
  | record htickets =>
      exact h.change htickets rfl rfl (fun _ => Shared.record_fault_ne_none _ _)
        fun _ => Shared.record_fault_ne_none _ _
  | release htickets => exact h.release htickets

/-- Every step keeps the books right. -/
theorem accounted_step (h : Accounted s) (hstep : Step layout w s t) : Accounted t := by
  cases hstep with
  | @root file rest task admitted hroots htask =>
      -- a good result comes after the last root file
      have hresult : ∀ c, s.result ≠ some (.ok c) := by
        intro c hresult
        rw [(h.result c hresult).1] at hroots
        cases hroots
      exact Accounted.schedule (s := { s with roots := rest })
        ⟨h.pending, h.lost, fun c hgood => absurd hgood (hresult c)⟩ admitted task hresult
  | refuse hroots htask => exact ⟨h.pending, h.lost, nofun⟩
  | take htickets hopen => exact h.change htickets rfl rfl nofun id
  | @advance front back task errand admitted htickets =>
      obtain ⟨hlive, hkept, hfault⟩ := errand.next_spec layout w task s.toShared
      refine Accounted.scheduleAll ?_ admitted _ (h.result_ne htickets rfl)
      exact h.change htickets rfl hlive (fun hlost => absurd (hkept.symm.trans hlost) nofun) hfault
  | panic htickets => exact h.change htickets rfl rfl nofun id
  | stop => exact ⟨h.pending, h.lost, h.result⟩
  | discard htickets hstopped => exact h.change htickets rfl rfl nofun id
  | drop hdrop => exact accounted_drop h hdrop
  | finish hroots hpending hresult =>
      -- a lost task is a fault by now, so without a fault none was lost
      refine ⟨h.pending, h.lost, fun c hgood => ⟨hroots, fun t ht => ?_⟩⟩
      exact h.stage_eq hpending (Shared.outcome_eq_ok (Option.some.inj hgood)) ht

/-- Every run keeps the books right. -/
theorem accounted_reachable (h : Reachable layout w roots s) : Accounted s := by
  induction h with
  | refl => exact accounted_start roots
  | tail _ hstep ih => exact accounted_step ih hstep

/-! ## Dropping tasks -/

/-- How many steps it takes to drop what neither waits nor runs. -/
def toDrop (s : Pooled) : Nat :=
  (s.tickets.map fun t => t.stage.toDrop).sum

/-- Whether no task waits or runs. -/
def Idle (s : Pooled) : Prop :=
  ∀ t ∈ s.tickets, t.stage.isActive = false

theorem toDrop_lt (hdrop : Drop s t) : t.toDrop < s.toDrop := by
  cases hdrop with
  | mark htickets => simp [toDrop, htickets, Stage.toDrop]
  | record htickets => simp [toDrop, htickets, Stage.toDrop]
  | release htickets => simp [toDrop, htickets, Stage.toDrop]

/-- Dropping tasks makes none wait or run. -/
theorem Idle.drop (h : Idle s) (hdrop : Drop s t) : Idle t := by
  have hchange : ∀ {front back : List Ticket} {task : LoadTask} {stage stage' : Stage},
      s.tickets = front ++ ⟨task, stage⟩ :: back → stage'.isActive = false →
      ∀ t ∈ front ++ ⟨task, stage'⟩ :: back, t.stage.isActive = false := by
    intro front back task stage stage' htickets hstage t ht
    rcases List.mem_append.1 ht with ht | ht
    · exact h t (htickets ▸ List.mem_append_left _ ht)
    · rcases List.mem_cons.1 ht with rfl | ht
      · exact hstage
      · exact h t (htickets ▸ List.mem_append_right _ (List.mem_cons_of_mem _ ht))
  cases hdrop with
  | mark htickets => exact hchange htickets rfl
  | record htickets => exact hchange htickets rfl
  | release htickets => exact hchange htickets rfl

/-- A task that neither waits nor runs can be dropped further, until its ticket is back. -/
theorem Idle.exists_drop (h : Idle s) {ticket : Ticket} (hmem : ticket ∈ s.tickets)
    (hlive : ticket.stage.isLive = true) : ∃ t, Drop s t := by
  obtain ⟨front, back, htickets⟩ := List.append_of_mem hmem
  have hidle := h ticket hmem
  obtain ⟨task, stage⟩ := ticket
  cases stage with
  | queued => cases hidle
  | running errand => cases hidle
  | broken => exact ⟨_, .mark htickets⟩
  | marked => exact ⟨_, .record htickets⟩
  | leaving completed => exact ⟨_, .release htickets⟩
  | returned completed => cases hlive

/-- Dropping tasks ends, and goes on as long as a ticket is out. -/
theorem Idle.drops (h : Idle s) (hs : Accounted s) :
    (¬ ∃ run : Nat → Pooled, run 0 = s ∧ ∀ n, Drop (run n) (run (n + 1))) ∧
    ∀ t, Relation.ReflTransGen Drop s t → (∃ u, Drop t u) ∨ t.pending = 0 := by
  constructor
  · rintro ⟨run, -, hrun⟩
    -- every step leaves less to be dropped
    have hlt : ∀ n, (run n).toDrop + n ≤ (run 0).toDrop := by
      intro n
      induction n with
      | zero => exact le_refl _
      | succ n ih =>
          have hstep := toDrop_lt (hrun n)
          omega
    have hend := hlt ((run 0).toDrop + 1)
    omega
  · intro t hdrops
    have hboth : Idle t ∧ Accounted t := by
      induction hdrops with
      | refl => exact ⟨h, hs⟩
      | tail _ hdrop ih => exact ⟨ih.1.drop hdrop, accounted_drop ih.2 hdrop⟩
    obtain ⟨hidle, hbooks⟩ := hboth
    -- a ticket that is out is that of a task in the middle of being dropped
    by_cases hout : ∃ ticket ∈ t.tickets, ticket.stage.isLive = true
    · obtain ⟨ticket, hmem, hlive⟩ := hout
      exact .inl (hidle.exists_drop hmem hlive)
    · refine .inr ?_
      rw [hbooks.pending, List.countP_eq_zero]
      exact fun ticket hmem hlive => hout ⟨ticket, hmem, hlive⟩

end Pooled

end Buildwright.Loading
