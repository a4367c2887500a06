import Buildwright.Proofs.Loading.BreadthFirst
import Buildwright.Proofs.Loading.PooledRuns
import Buildwright.Proofs.Package.Operations

/-! # What loading takes

    Tasks are scheduled while others run.  But a package is begun once, only what was begun
    is evaluated, and it is for the dependencies of what was evaluated that tasks are made.
    So every task is paid for by a root file or by a dependency text, and no package is
    evaluated twice.

    * `Workspace.deps` — the dependency texts of a declaration file;
    * `Errand.Spends`, `Errand.next_spends` — what an errand takes;
    * `Pooled.Logged` — runs with a log of what is evaluated;
    * `Pooled.Tallied`, `Pooled.tallied_logged` — what every run preserves. -/

namespace Buildwright

/-- The dependency texts that a call declares in a file. -/
def Call.deps (file : Path) (call : Call) : List String :=
  match Declaration.ofCall call file with
  | .ok d => d.deps
  | .error _ => []

/-- The dependency texts of a declaration file. -/
def Workspace.deps (w : Workspace) (file : Path) : List String :=
  match w.evaluate file with
  | .ok calls => calls.flatMap (Call.deps file)
  | .error _ => []

theorem Call.deps_eq_of_ofCall {file : Path} {call : Call} {d : Declaration}
    (h : Declaration.ofCall call file = .ok d) : call.deps file = d.deps := by
  rw [deps, h]

/-- A package is not made fresh again. -/
theorem Catalog.Precedes.toNat_isFresh_le {c c' : Catalog} (h : c.Precedes c') (key : String) :
    (c'.isFresh key).toNat ≤ (c.isFresh key).toNat := by
  cases hfresh : c'.isFresh key with
  | false => exact Nat.zero_le _
  | true => rw [h.isFresh hfresh]

theorem Catalog.precedes_addRule {c c' : Catalog} {key : String} {d : Declaration} {id : RuleId}
    (h : c.addRule key d = .ok (id, c')) : c.Precedes c' := by
  have hperform := precedes_perform c (.addRule key d)
  simp only [perform, h] at hperform
  exact hperform

/-- A dependency makes one task at most, that of the package to which the text refers. -/
theorem PackageRun.follow_eq_ok {layout : Layout} {key raw : String} {id : RuleId}
    {run run' : PackageRun} (h : run.follow layout key id raw = .ok run') :
    ∃ more, run'.tasks = run.tasks ++ more ∧ more.length ≤ 1 ∧ ∀ task ∈ more,
      Reference.target? key raw = some task.key ∧ layout.fileOf? task.key = some task.file := by
  have hnone : run.tasks = run.tasks ++ [] := (List.append_nil _).symm
  have hnil : ∀ {P : LoadTask → Prop}, ∀ task ∈ ([] : List LoadTask), P task :=
    fun _ h => absurd h List.not_mem_nil
  cases hparse : Reference.parse raw with
  | error fault =>
      rw [follow, hparse] at h
      cases h
  | ok reference =>
      rw [follow_of_parse hparse] at h
      by_cases hself : reference.position = .this ∨ reference.resolve key = key
      · rw [if_pos hself] at h
        obtain rfl := Except.ok.inj h
        exact ⟨[], hnone, Nat.zero_le _, hnil⟩
      rw [if_neg hself] at h
      have hrefer := refer_cases layout id raw (reference.resolve key) run
      rw [h] at hrefer
      cases hrefer with
      | seen _ | known _ _ => exact ⟨[], hnone, Nat.zero_le _, hnil⟩
      | task _ _ hfile =>
          refine ⟨_, rfl, le_refl _, fun task htask => ?_⟩
          rw [List.mem_singleton.1 htask]
          exact ⟨by rw [Reference.target?, hparse], hfile⟩

namespace Loading

variable {layout : Layout} {w : Workspace} {roots : List Path} {task : LoadTask}
  {log : List LoadTask}

/-! ## What an errand takes -/

/-- How many dependency texts of a file are still to be followed, once it has been evaluated. -/
@[simp]
def Errand.owed (file : Path) : Errand → Nat
  | declare calls _ => (calls.flatMap (Call.deps file)).length
  | follow _ deps calls _ => deps.length + (calls.flatMap (Call.deps file)).length
  | _ => 0

@[simp]
def Stage.owed (file : Path) : Stage → Nat
  | running errand => errand.owed file
  | _ => 0

/-- How many steps a task takes at most, with those of the tasks that it may make.  A dependency
    takes one step more than a task that waits, since it may make one. -/
@[simp]
def Errand.effort (file : Path) : Errand → Nat
  | start => 9
  | visit => 8
  | begin => 7
  | evaluate => 6
  | declare calls _ => 6 + 2 * calls.length + 11 * (calls.flatMap (Call.deps file)).length
  | follow _ deps calls _ =>
    7 + 2 * calls.length + 11 * (deps.length + (calls.flatMap (Call.deps file)).length)
  | cancel _ => 5
  | record _ => 4

@[simp]
def Stage.effort (file : Path) : Stage → Nat
  | queued => 10
  | running errand => errand.effort file
  | stage => stage.toDrop

/-- Whether a task evaluates the file of the package. -/
@[simp]
def Stage.Evaluates (key : String) (task : LoadTask) : Stage → Bool
  | running .evaluate => task.key = key
  | _ => false

/-- What an errand takes: the package from those that are fresh, dependency texts from those that
    are owed, and effort.  Evaluating a file alone gives texts and effort. -/
structure Errand.Spends (layout : Layout) (w : Workspace) (task : LoadTask) (c : Shared)
    (errand : Errand) (c' : Shared) (stage : Stage) (more : List LoadTask) : Prop where
  fresh : ∀ key, (stage.Evaluates key task).toNat + (c'.catalog.isFresh key).toNat ≤
    (c.catalog.isFresh key).toNat
  owed : stage.owed task.file + more.length ≤ errand.owed task.file ∨
    errand = .evaluate ∧ more = [] ∧ stage.owed task.file ≤ (w.deps task.file).length
  effort : stage.effort task.file + 10 * more.length < errand.effort task.file ∨
    errand = .evaluate ∧ ∃ calls, w.evaluate task.file = .ok calls
  made : ∀ t ∈ more, layout.fileOf? t.key = some t.file ∧
    ∃ raw, Reference.target? task.key raw = some t.key

section
variable {c : Shared} {errand : Errand} {stage : Stage}

/-- An errand that makes no task and evaluates nothing. -/
theorem Errand.Spends.of_precedes {c' : Shared} (hprecedes : c.catalog.Precedes c'.catalog)
    (hstage : ∀ key, stage.Evaluates key task = false)
    (howed : stage.owed task.file ≤ errand.owed task.file)
    (heffort : stage.effort task.file < errand.effort task.file) :
    errand.Spends layout w task c c' stage [] where
  fresh key := by
    rw [hstage key, Bool.toNat_false, Nat.zero_add]
    exact hprecedes.toNat_isFresh_le key
  owed := .inl howed
  effort := .inl heffort
  made _ h := absurd h List.not_mem_nil

/-- Whether the key of a task is normalized, and its file stands for the package. -/
def Regular (layout : Layout) (roots : List Path) (task : LoadTask) : Prop :=
  Package.Key.Formed task.key ∧ StandsFor layout roots task.key task.file

/-- Errands of regular tasks make regular tasks. -/
theorem Errand.Spends.regular {c c' : Shared} {errand : Errand} {more : List LoadTask}
    (h : errand.Spends layout w task c c' stage more) (htask : Regular layout roots task) :
    ∀ t ∈ more, Regular layout roots t := by
  intro t ht
  obtain ⟨hfile, raw, htarget⟩ := h.made t ht
  exact ⟨formed_of_target? htask.1 htarget, .inr hfile⟩

/-- Evaluating a file gives its calls, or the task fails. -/
theorem Errand.evaluate_spends (layout : Layout) (w : Workspace) (task : LoadTask) (c : Shared) :
    evaluate.Spends layout w task c (evaluate.next layout w task c).1
      (evaluate.next layout w task c).2.1 (evaluate.next layout w task c).2.2 := by
  have hrefl := Catalog.Precedes.refl c.catalog
  rw [next]
  cases heval : w.evaluate task.file with
  | error failure =>
      cases failure with
      | panicked message =>
          exact .of_precedes hrefl (fun _ => rfl) (Nat.zero_le _) (by simp [Stage.toDrop])
      | fault fault => exact .of_precedes hrefl (fun _ => rfl) (Nat.zero_le _) (by simp)
  | ok calls =>
      refine ⟨fun key => by simp, .inr ⟨rfl, rfl, ?_⟩, .inr ⟨rfl, calls, heval⟩,
        fun _ h => absurd h List.not_mem_nil⟩
      rw [Workspace.deps, heval]
      exact le_refl _

/-- A call is declared, and its dependencies are to be followed next. -/
theorem Errand.declare_spends (layout : Layout) (w : Workspace) (task : LoadTask) (c : Shared)
    (calls : List Call) (seen : List String) :
    (declare calls seen).Spends layout w task c ((declare calls seen).next layout w task c).1
      ((declare calls seen).next layout w task c).2.1
      ((declare calls seen).next layout w task c).2.2 := by
  have hrefl := Catalog.Precedes.refl c.catalog
  cases calls with
  | nil =>
      rw [next]
      exact .of_precedes (Catalog.precedes_finish _ _) (fun _ => rfl) (Nat.zero_le _)
        (by simp [Stage.toDrop])
  | cons call calls =>
      rw [next]
      cases hd : Declaration.ofCall call task.file with
      | error fault =>
          exact .of_precedes hrefl (fun _ => rfl) (Nat.zero_le _) (by simp; omega)
      | ok d =>
          have hdeps := Call.deps_eq_of_ofCall hd
          cases hadd : c.catalog.addRule task.key d with
          | error fault =>
              simp only [hadd]
              exact .of_precedes hrefl (fun _ => rfl) (Nat.zero_le _) (by simp; omega)
          | ok added =>
              simp only [hadd]
              exact .of_precedes (Catalog.precedes_addRule hadd) (fun _ => rfl)
                (by simp [hdeps]) (by simp [hdeps]; omega)

/-- A dependency is followed, for which there may be a task. -/
theorem Errand.follow_spends (layout : Layout) (w : Workspace) (task : LoadTask) (c : Shared)
    (id : RuleId) (deps : List String) (calls : List Call) (seen : List String) :
    (follow id deps calls seen).Spends layout w task c
      ((follow id deps calls seen).next layout w task c).1
      ((follow id deps calls seen).next layout w task c).2.1
      ((follow id deps calls seen).next layout w task c).2.2 := by
  have hrefl := Catalog.Precedes.refl c.catalog
  cases deps with
  | nil =>
      rw [next]
      exact .of_precedes hrefl (fun _ => rfl) (by simp) (by simp)
  | cons raw deps =>
      rw [next]
      cases hfollow : PackageRun.follow layout task.key id raw { catalog := c.catalog, seen } with
      | error fault =>
          exact .of_precedes hrefl (fun _ => rfl) (Nat.zero_le _) (by simp; omega)
      | ok run =>
          obtain ⟨more, htasks, hlen, hmore⟩ := PackageRun.follow_eq_ok hfollow
          simp only [htasks, List.nil_append]
          refine ⟨fun key => by simp, .inl (by simp; omega), .inl (by simp; omega), fun t ht => ?_⟩
          exact ⟨(hmore t ht).2, raw, (hmore t ht).1⟩

/-- Every errand takes no more than it may. -/
theorem Errand.next_spends (layout : Layout) (w : Workspace) (task : LoadTask) (c : Shared)
    (errand : Errand) :
    errand.Spends layout w task c (errand.next layout w task c).1
      (errand.next layout w task c).2.1 (errand.next layout w task c).2.2 := by
  have hrefl := Catalog.Precedes.refl c.catalog
  cases errand with
  | start =>
      rw [next]
      split
      · exact .of_precedes hrefl (fun _ => rfl) (Nat.zero_le _) (by simp [Stage.toDrop])
      · exact .of_precedes hrefl (fun _ => rfl) (Nat.zero_le _) (by simp)
  | visit =>
      rw [next]
      split
      · exact .of_precedes hrefl (fun _ => rfl) (Nat.zero_le _) (by simp [Stage.toDrop])
      · exact .of_precedes (Catalog.precedes_visit _ _) (fun _ => rfl) (Nat.zero_le _) (by simp)
  | begin =>
      rw [next]
      split
      case isFalse =>
        exact .of_precedes hrefl (fun _ => rfl) (Nat.zero_le _) (by simp [Stage.toDrop])
      case isTrue hfresh =>
        -- the package stops being fresh, and its file is evaluated next
        refine ⟨fun key => ?_, .inl (Nat.zero_le _), .inl (by simp),
          fun _ h => absurd h List.not_mem_nil⟩
        by_cases hkey : task.key = key
        · subst hkey
          simp [Catalog.isFresh_begin, hfresh]
        · have hle := (Catalog.precedes_begin c.catalog task.key task.file).toNat_isFresh_le key
          simpa [hkey] using hle
  | evaluate => exact evaluate_spends layout w task c
  | declare calls seen => exact declare_spends layout w task c calls seen
  | follow id deps calls seen => exact follow_spends layout w task c id deps calls seen
  | cancel fault =>
      rw [next]
      exact .of_precedes hrefl (fun _ => rfl) (Nat.zero_le _) (by simp)
  | record fault =>
      rw [next]
      exact .of_precedes hrefl (fun _ => rfl) (Nat.zero_le _) (by simp [Stage.toDrop])

end

/-! ## Runs with a log -/

namespace Pooled

/-- The step in which the declaration file of a task is evaluated. -/
inductive Evaluates (layout : Layout) (w : Workspace) (task : LoadTask) :
    Pooled → Pooled → Prop where
  | mk {s : Pooled} {front back : List Ticket}
      (htickets : s.tickets = front ++ ⟨task, .running .evaluate⟩ :: back) :
      Evaluates layout w task s { s with
        toShared := (Errand.evaluate.next layout w task s.toShared).1
        tickets := front ++ ⟨task, (Errand.evaluate.next layout w task s.toShared).2.1⟩ :: back }

/-- Whether steps lead from the root files to a state, and on the way the files of these tasks
    are evaluated, in this order. -/
inductive Logged (layout : Layout) (w : Workspace) (roots : List Path) :
    List LoadTask → Pooled → Prop where
  | start : Logged layout w roots [] { roots }
  | quiet {log : List LoadTask} {s t : Pooled} (h : Logged layout w roots log s)
      (hstep : Step layout w s t) (hquiet : ∀ task, ¬ Evaluates layout w task s t) :
      Logged layout w roots log t
  | evaluate {log : List LoadTask} {s t : Pooled} {task : LoadTask}
      (h : Logged layout w roots log s) (heval : Evaluates layout w task s t) :
      Logged layout w roots (log ++ [task]) t

variable {s t : Pooled} {front back : List Ticket} {stage stage' : Stage}
  {credit credit' : Nat} {log' : List LoadTask}

/-- Evaluating a file makes no task. -/
theorem evaluate_next_tasks (c : Shared) : (Errand.evaluate.next layout w task c).2.2 = [] := by
  rcases (Errand.evaluate_spends layout w task c).owed with h | ⟨-, hnil, -⟩
  · have hlen : (Errand.evaluate.next layout w task c).2.2.length ≤ 0 :=
      (Nat.le_add_left _ _).trans h
    exact List.length_eq_zero_iff.1 (Nat.le_zero.1 hlen)
  · exact hnil

theorem evaluates_advance (admitted : Bool)
    (htickets : s.tickets = front ++ ⟨task, .running .evaluate⟩ :: back) :
    Evaluates layout w task s (scheduleAll admitted
      { s with
        toShared := (Errand.evaluate.next layout w task s.toShared).1
        tickets := front ++ ⟨task, (Errand.evaluate.next layout w task s.toShared).2.1⟩ :: back }
      (Errand.evaluate.next layout w task s.toShared).2.2) := by
  rw [evaluate_next_tasks]
  exact .mk htickets

theorem Evaluates.step (h : Evaluates layout w task s t) : Step layout w s t := by
  cases h with
  | mk htickets =>
      have hstep : Step layout w s _ := .advance true htickets
      rwa [evaluate_next_tasks] at hstep

theorem Logged.reachable (h : Logged layout w roots log s) : Reachable layout w roots s := by
  induction h with
  | start => exact .refl
  | quiet _ hstep _ ih => exact ih.tail hstep
  | evaluate _ heval ih => exact ih.tail heval.step

/-- A step is logged, if a file is evaluated in it. -/
theorem Logged.step (h : Logged layout w roots log s) (hstep : Step layout w s t) :
    Logged layout w roots log t ∨
      ∃ task, Evaluates layout w task s t ∧ Logged layout w roots (log ++ [task]) t := by
  by_cases heval : ∃ task, Evaluates layout w task s t
  · obtain ⟨task, heval⟩ := heval
    exact .inr ⟨task, heval, h.evaluate heval⟩
  · exact .inl (h.quiet hstep fun task htask => heval ⟨task, htask⟩)

/-- Every run has a log. -/
theorem exists_logged (h : Reachable layout w roots s) : ∃ log, Logged layout w roots log s := by
  induction h with
  | refl => exact ⟨[], .start⟩
  | tail _ hstep ih =>
      obtain ⟨log, hlog⟩ := ih
      rcases hlog.step hstep with hlog | ⟨task, -, hlog⟩
      · exact ⟨log, hlog⟩
      · exact ⟨log ++ [task], hlog⟩

/-! ## What every run preserves -/

/-- Whether the tasks are paid for, and `credit` more would be: by root files, and by
    dependencies of files that were evaluated.  A package is fresh, or its file is being
    evaluated, or it is in the log, or none of these. -/
structure Tallied (layout : Layout) (w : Workspace) (roots : List Path) (log : List LoadTask)
    (credit : Nat) (s : Pooled) : Prop where
  once : ∀ key, log.countP (fun t => t.key = key) +
    s.tickets.countP (fun t => t.stage.Evaluates key t.task) + (s.catalog.isFresh key).toNat ≤ 1
  tasks : s.tickets.length + s.roots.length +
    (s.tickets.map fun t => t.stage.owed t.task.file).sum + credit ≤
      roots.length + (log.flatMap fun t => w.deps t.file).length
  logged : ∀ t ∈ log, Regular layout roots t
  scheduled : ∀ t ∈ s.tickets, Regular layout roots t.task
  pending : ∀ file ∈ s.roots, file ∈ roots

theorem tallied_start (layout : Layout) (w : Workspace) (roots : List Path) :
    Tallied layout w roots [] 0 { roots } where
  once key := by
    rw [List.countP_nil, List.countP_nil, Nat.zero_add]
    exact Bool.toNat_le _
  tasks := by simp
  logged _ h := absurd h List.not_mem_nil
  scheduled _ h := absurd h List.not_mem_nil
  pending _ h := h

/-- A task that is scheduled uses up credit. -/
theorem Tallied.schedule (h : Tallied layout w roots log (credit + 1) s) (admitted : Bool)
    (hregular : Regular layout roots task) :
    Tallied layout w roots log credit (s.schedule admitted task) := by
  have hstage : ∀ key, (if s.stopped && !admitted then Stage.broken else .queued).Evaluates key
      task = false ∧
      (if s.stopped && !admitted then Stage.broken else .queued).owed task.file = 0 := by
    intro key
    split <;> exact ⟨rfl, rfl⟩
  refine ⟨fun key => ?_, ?_, h.logged, fun t ht => ?_, h.pending⟩
  · have honce := h.once key
    simpa only [Pooled.schedule, List.countP_append, List.countP_singleton, (hstage key).1,
      Bool.false_eq_true, if_false, Nat.add_zero] using honce
  · have htasks := h.tasks
    simp only [Pooled.schedule, List.length_append, List.map_append, List.sum_append,
      List.length_singleton, List.map_singleton, List.sum_singleton, (hstage "").2]
    omega
  · rcases List.mem_append.1 ht with ht | ht
    · exact h.scheduled t ht
    · rw [List.mem_singleton.1 ht]
      exact hregular

theorem Tallied.scheduleAll {more : List LoadTask} (admitted : Bool)
    (h : Tallied layout w roots log more.length s) (hregular : ∀ t ∈ more, Regular layout roots t) :
    Tallied layout w roots log 0 (s.scheduleAll admitted more) := by
  induction more generalizing s with
  | nil => exact h
  | cons task rest ih =>
      obtain ⟨htask, hrest⟩ := List.forall_mem_cons.1 hregular
      exact ih (h.schedule admitted htask) hrest

/-- A change of one task, which may be put on the log. -/
theorem Tallied.change (h : Tallied layout w roots log credit s)
    (htickets : s.tickets = front ++ ⟨task, stage⟩ :: back)
    (htickets' : t.tickets = front ++ ⟨task, stage'⟩ :: back) (hroots : t.roots = s.roots)
    (hlog : ∀ t ∈ log', t ∈ log ∨ t = task)
    (honce : ∀ key, log'.countP (fun t => t.key = key) + (stage'.Evaluates key task).toNat +
      (t.catalog.isFresh key).toNat ≤ log.countP (fun t => t.key = key) +
        (stage.Evaluates key task).toNat + (s.catalog.isFresh key).toNat)
    (howed : stage'.owed task.file + credit' + (log.flatMap fun t => w.deps t.file).length ≤
      stage.owed task.file + credit + (log'.flatMap fun t => w.deps t.file).length) :
    Tallied layout w roots log' credit' t := by
  have hregular : Regular layout roots task :=
    h.scheduled ⟨task, stage⟩ (htickets ▸ List.mem_append_right _ (List.mem_cons_self ..))
  have hcount : ∀ (key : String) (stage : Stage),
      (front ++ ⟨task, stage⟩ :: back).countP (fun t => t.stage.Evaluates key t.task) =
        front.countP (fun t => t.stage.Evaluates key t.task) +
          back.countP (fun t => t.stage.Evaluates key t.task) +
          (stage.Evaluates key task).toNat := by
    intro key stage
    rw [List.countP_append, List.countP_cons, Nat.add_assoc]
    cases stage.Evaluates key task <;> rfl
  refine ⟨fun key => ?_, ?_, fun t ht => ?_, fun t ht => ?_, ?_⟩
  · have hbefore := h.once key
    have hkey := honce key
    rw [htickets, hcount] at hbefore
    rw [htickets', hcount]
    omega
  · have hbefore := h.tasks
    rw [htickets] at hbefore
    rw [htickets', hroots]
    simp only [List.length_append, List.length_cons, List.map_append, List.map_cons,
      List.sum_append, List.sum_cons] at hbefore ⊢
    omega
  · rcases hlog t ht with ht | rfl
    · exact h.logged t ht
    · exact hregular
  · rw [htickets'] at ht
    rcases List.mem_append.1 ht with ht | ht
    · exact h.scheduled t (htickets ▸ List.mem_append_left _ ht)
    · rcases List.mem_cons.1 ht with rfl | ht
      · exact hregular
      · exact h.scheduled t (htickets ▸ List.mem_append_right _ (List.mem_cons_of_mem _ ht))
  · rw [hroots]
    exact h.pending

/-- A task that goes on without evaluating or owing anything. -/
theorem Tallied.retire (h : Tallied layout w roots log credit s)
    (htickets : s.tickets = front ++ ⟨task, stage⟩ :: back)
    (htickets' : t.tickets = front ++ ⟨task, stage'⟩ :: back) (hroots : t.roots = s.roots)
    (hcatalog : t.catalog = s.catalog) (hstage : ∀ key, stage'.Evaluates key task = false)
    (howed : stage'.owed task.file = 0) : Tallied layout w roots log credit t := by
  refine h.change htickets htickets' hroots (fun t ht => .inl ht) (fun key => ?_) ?_
  · rw [hstage key, hcatalog, Bool.toNat_false]
    omega
  · rw [howed]
    omega

/-- Dropping tasks takes nothing. -/
theorem Tallied.drop (h : Tallied layout w roots log credit s) (hdrop : Drop s t) :
    Tallied layout w roots log credit t := by
  cases hdrop with
  | mark htickets => exact h.retire htickets rfl rfl rfl (fun _ => rfl) rfl
  | record htickets => exact h.retire htickets rfl rfl rfl (fun _ => rfl) rfl
  | release htickets => exact h.retire htickets rfl rfl rfl (fun _ => rfl) rfl

/-- Every step without an evaluation leaves the tally right. -/
theorem tallied_quiet (h : Tallied layout w roots log 0 s) (hstep : Step layout w s t)
    (hquiet : ∀ task, ¬ Evaluates layout w task s t) : Tallied layout w roots log 0 t := by
  cases hstep with
  | @root file rest task admitted hroots htask =>
      have hpackage := rootTask_eq_ok htask
      have hfile : file ∈ roots := h.pending file (hroots ▸ List.mem_cons_self ..)
      have hready : Tallied layout w roots log 1 { s with roots := rest } := by
        refine ⟨h.once, ?_, h.logged, h.scheduled, fun f hf => h.pending f ?_⟩
        · have htasks := h.tasks
          rw [hroots, List.length_cons] at htasks
          simp only
          omega
        · exact hroots ▸ List.mem_cons_of_mem _ hf
      exact hready.schedule admitted ⟨formed_of_packageOf hpackage, .inl ⟨file, hfile, hpackage⟩⟩
  | refuse hroots htask =>
      refine ⟨h.once, ?_, h.logged, h.scheduled, fun _ hf => absurd hf List.not_mem_nil⟩
      have htasks := h.tasks
      simp only [List.length_nil]
      omega
  | take htickets hopen => exact h.retire htickets rfl rfl rfl (fun _ => rfl) rfl
  | @advance front back task errand admitted htickets =>
      have hspends := errand.next_spends layout w task s.toShared
      have hregular := h.scheduled _ (htickets ▸ List.mem_append_right _ (List.mem_cons_self ..))
      rcases hspends.owed with howed | ⟨rfl, -, -⟩
      · refine Tallied.scheduleAll admitted ?_ (hspends.regular hregular)
        refine h.change htickets rfl rfl (fun t ht => .inl ht) (fun key => ?_) ?_
        · have hfresh := hspends.fresh key
          simp only
          omega
        · show _ ≤ errand.owed task.file + _ + _
          omega
      · exact absurd (evaluates_advance admitted htickets) (hquiet task)
  | panic htickets => exact h.retire htickets rfl rfl rfl (fun _ => rfl) rfl
  | stop => exact ⟨h.once, h.tasks, h.logged, h.scheduled, h.pending⟩
  | discard htickets hstopped => exact h.retire htickets rfl rfl rfl (fun _ => rfl) rfl
  | drop hdrop => exact h.drop hdrop
  | finish hroots hpending hresult => exact ⟨h.once, h.tasks, h.logged, h.scheduled, h.pending⟩

/-- An evaluation puts the task on the log, and its dependencies pay for more. -/
theorem tallied_evaluate (h : Tallied layout w roots log 0 s)
    (heval : Evaluates layout w task s t) : Tallied layout w roots (log ++ [task]) 0 t := by
  cases heval with
  | @mk front back htickets =>
      have hspends := Errand.evaluate_spends layout w task s.toShared
      refine h.change htickets rfl rfl (fun t ht => ?_) (fun key => ?_) ?_
      · exact (List.mem_append.1 ht).imp id List.mem_singleton.1
      · have hfresh := hspends.fresh key
        have hcount : (log ++ [task]).countP (fun t => t.key = key) =
            log.countP (fun t => t.key = key) +
              ((Stage.running .evaluate).Evaluates key task).toNat := by
          rw [List.countP_append, List.countP_singleton]
          by_cases hkey : task.key = key <;> simp [hkey]
        rw [hcount]
        simp only
        omega
      · have howed : (Errand.evaluate.next layout w task s.toShared).2.1.owed task.file ≤
            (w.deps task.file).length := by
          rcases hspends.owed with howed | ⟨-, -, howed⟩
          · have hzero : Errand.evaluate.owed task.file = 0 := rfl
            omega
          · exact howed
        rw [List.flatMap_append, List.flatMap_singleton, List.length_append]
        omega

/-- Every run with its log leaves the tally right. -/
theorem tallied_logged (h : Logged layout w roots log s) : Tallied layout w roots log 0 s := by
  induction h with
  | start => exact tallied_start layout w roots
  | quiet _ hstep hquiet ih => exact tallied_quiet ih hstep hquiet
  | evaluate _ heval ih => exact tallied_evaluate ih heval

/-- No package is evaluated twice. -/
theorem Tallied.nodup (h : Tallied layout w roots log credit s) :
    (log.map LoadTask.key).Nodup := by
  rw [List.nodup_iff_count_le_one]
  intro key
  have honce := h.once key
  have hcount : (log.map LoadTask.key).count key = log.countP (fun t => t.key = key) := by
    rw [List.count_eq_countP, List.countP_map]
    exact List.countP_congr fun t _ => by simp
  omega

end Pooled

end Loading

end Buildwright
