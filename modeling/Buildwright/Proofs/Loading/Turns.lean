import Buildwright.Proofs.Loading.Schedule

/-! # First in, first out

    One worker takes the task that has waited longest.  There is one way to do so, and it is
    the way in which `load` goes, until nothing is left or the fuel is used up.

    * `Turn`, `Turn.rightUnique` — taking the task that has waited longest, in one way;
    * `Exhausted` — when the fuel is used up;
    * `turns_run`, `turns_load` — the turns that a run with fuel takes, and those of `load`;
    * `EndsIn`, `exists_run_of_load` — `load` is one of the runs. -/

namespace Buildwright.Loading

variable {layout : Layout} {w : Workspace} {roots : List Path} {tasks : List LoadTask}
  {s t : Progress}

/-! ## Turns -/

/-- The steps of one run after the other. -/
abbrev Steps (layout : Layout) (w : Workspace) : Progress → Progress → Prop :=
  Relation.ReflTransGen (Step layout w)

/-- The root files are queued in their order. -/
theorem steps_roots (htasks : roots.mapM (rootTask layout) = .ok tasks)
    (queue : List LoadTask) :
    Steps layout w { roots, queue } { roots := [], queue := queue ++ tasks } := by
  induction roots generalizing queue tasks with
  | nil =>
      obtain rfl : [] = tasks := Except.ok.inj htasks
      rw [List.append_nil]
  | cons file rest ih =>
      obtain ⟨task, tasks', htask, htasks', rfl⟩ := mapM_cons_eq_ok_iff.1 htasks
      refine .head (.root rfl htask) ?_
      have htail := ih htasks' (queue ++ [task])
      rwa [← List.append_cons] at htail

/-- The task that has waited longest is taken. -/
inductive Turn (layout : Layout) (w : Workspace) : Progress → Progress → Prop where
  | take {s : Progress} {task : LoadTask} {rest : List LoadTask}
      (hqueue : s.queue = task :: rest) :
      Turn layout w s ({ s with queue := rest }.perform layout w task)

/-- The turns of one worker, one after the other. -/
abbrev Turns (layout : Layout) (w : Workspace) : Progress → Progress → Prop :=
  Relation.ReflTransGen (Turn layout w)

/-- A turn is one of the steps of loading. -/
theorem Turn.step (h : Turn layout w s t) : Step layout w s t := by
  cases h with
  | @take task rest hqueue =>
      exact .task (show s.queue = [] ++ task :: rest from hqueue)

/-- There is one way to take a turn. -/
theorem Turn.rightUnique (layout : Layout) (w : Workspace) :
    Relator.RightUnique (Turn layout w) := by
  rintro s t t' ⟨hqueue⟩ ⟨hqueue'⟩
  obtain ⟨rfl, rfl⟩ := List.cons.inj (hqueue.symm.trans hqueue')
  rfl

/-- Turns are steps of loading. -/
theorem reachable_of_turns (htasks : roots.mapM (rootTask layout) = .ok tasks)
    (h : Turns layout w { roots := [], queue := tasks } s) : Reachable layout w roots s := by
  have hqueued : Reachable layout w roots { roots := [], queue := tasks } := steps_roots htasks []
  exact hqueued.trans (Relation.ReflTransGen.mono (fun _ _ hturn => hturn.step) _ _ h)

/-- After a fault the tasks that are left are skipped. -/
theorem turns_skip (layout : Layout) (w : Workspace) {fault : Fault} (queue : List LoadTask)
    (hqueue : s.queue = queue) (hfault : s.fault = some fault) :
    Turns layout w s { s with queue := [] } := by
  induction queue generalizing s with
  | nil =>
      rw [← hqueue]
  | cons task rest ih =>
      have hturn : Turn layout w s _ := .take hqueue
      rw [Progress.perform, if_pos (.inl (by rw [hfault]; rfl))] at hturn
      exact .head hturn (ih rfl hfault)

/-! ## One end -/

/-- From the end no turn is taken. -/
theorem eq_of_turns (h : Turns layout w s t) (hdone : s.Complete) : s = t := by
  rcases Relation.ReflTransGen.cases_head h with heq | ⟨u, ⟨hqueue⟩, -⟩
  · exact heq
  · rw [hdone.2] at hqueue
    cases hqueue

/-- Whoever takes turns goes on to the one end. -/
theorem turns_to_complete {start : Progress} (h : Turns layout w start s)
    (h' : Turns layout w start t) (hdone : t.Complete) : Turns layout w s t := by
  rcases Relation.ReflTransGen.total_of_right_unique (Turn.rightUnique layout w) h h' with
    hst | hts
  · exact hst
  · rw [eq_of_turns hts hdone]

/-- A turn evaluates at most one package. -/
theorem Turn.evaluated_prefix_of (h : Turn layout w s t) : s.evaluated <+: t.evaluated := by
  cases h with
  | @take task rest hqueue =>
      rcases perform_cases layout w { s with queue := rest } task with
        ⟨heq, -⟩ | ⟨-, -, p, more, -, -, -, -, -, -, heq⟩ | ⟨-, -, fault, -, -, heq⟩
      · rw [heq]
      · rw [heq]
        exact List.prefix_append _ _
      · rw [heq]
        exact List.prefix_append _ _

theorem length_evaluated_le (h : Turns layout w s t) : s.evaluated.length ≤ t.evaluated.length := by
  induction h with
  | refl => exact le_refl _
  | tail _ hturn ih => exact ih.trans hturn.evaluated_prefix_of.length_le

/-! ## The turns of a run -/

theorem run_of_contains {fuel : Nat} {c : Catalog} {task : LoadTask} {queue : List LoadTask}
    (h : c.contains task.key = true) :
    run layout w fuel c (task :: queue) = run layout w fuel c queue := by
  rw [run.eq_def layout w fuel c (task :: queue)]
  exact if_pos h

theorem run_zero {c : Catalog} {task : LoadTask} {queue : List LoadTask}
    (h : ¬ c.contains task.key = true) : run layout w 0 c (task :: queue) =
      .error (.internal "more packages than declaration files") := by
  rw [run.eq_def]
  exact if_neg h

theorem run_succ {fuel : Nat} {c : Catalog} {task : LoadTask} {queue : List LoadTask}
    (h : ¬ c.contains task.key = true) : run layout w (fuel + 1) c (task :: queue) =
      loadPackage layout w c task >>= fun added =>
        run layout w fuel added.1 (queue ++ added.2) := by
  rw [run.eq_def]
  exact if_neg h

/-- Whether a package is new after so many evaluations that there is no room for another. -/
structure Exhausted (s : Progress) (n : Nat) : Prop where
  fault : s.fault = none
  evaluated : s.evaluated.length = n
  next : ∃ task rest, s.queue = task :: rest ∧ s.catalog.contains task.key = false

/-- The turns that a run with fuel takes lead to its end, or use up the fuel, which is a fault
    of the run. -/
theorem turns_run (layout : Layout) (w : Workspace) (fuel : Nat) (c : Catalog)
    (queue : List LoadTask) (hroots : s.roots = []) (hnone : s.fault = none)
    (hcatalog : s.catalog = c) (hqueue : s.queue = queue) :
    (∃ t, Turns layout w s t ∧ t.Complete ∧ t.outcome = run layout w fuel c queue) ∨
    ∃ t, Turns layout w s t ∧ Exhausted t (s.evaluated.length + fuel) ∧
      ∃ fault, run layout w fuel c queue = .error fault := by
  induction fuel, c, queue using run.induct generalizing s with
  | case1 fuel c =>
      refine .inl ⟨s, .refl, ⟨hroots, hqueue⟩, ?_⟩
      rw [Progress.outcome, hnone, run, hcatalog]
  | case2 fuel c task queue hknown ih =>
      subst hcatalog
      have hturn : Turn layout w s _ := .take hqueue
      rw [Progress.perform, if_pos (.inr hknown)] at hturn
      rw [run_of_contains hknown]
      rcases ih (s := { s with queue := queue }) hroots hnone rfl rfl with
        ⟨t, hturns, hend⟩ | ⟨t, hturns, hmore⟩
      · exact .inl ⟨t, .head hturn hturns, hend⟩
      · exact .inr ⟨t, .head hturn hturns, hmore⟩
  | case3 c task queue hnew =>
      subst hcatalog
      have hmore : Exhausted s s.evaluated.length :=
        ⟨hnone, rfl, task, queue, hqueue, Bool.not_eq_true _ ▸ hnew⟩
      exact .inr ⟨s, .refl, hmore, _, run_zero hnew⟩
  | case4 c task queue hnew fuel ih =>
      subst hcatalog
      have hturn : Turn layout w s _ := .take hqueue
      have hrun : ¬ (s.fault.isSome ∨ s.catalog.contains task.key) := by
        rw [hnone, not_or]
        exact ⟨Bool.false_ne_true, hnew⟩
      rw [Progress.perform, if_neg hrun] at hturn
      rw [run_succ hnew]
      cases hload : loadPackage layout w s.catalog task with
      | error fault =>
          simp only [hload] at hturn
          exact .inl ⟨_, .head hturn (turns_skip layout w queue rfl rfl), ⟨hroots, rfl⟩, rfl⟩
      | ok added =>
          simp only [hload] at hturn
          have hlen : (s.evaluated ++ [task.key]).length + fuel =
              s.evaluated.length + (fuel + 1) := by
            rw [List.length_append, List.length_singleton]
            omega
          rcases ih added.1 added.2 (s := { s with
            queue := queue ++ added.2, catalog := added.1
            evaluated := s.evaluated ++ [task.key] }) hroots hnone rfl rfl with
            ⟨t, hturns, hend⟩ | ⟨t, hturns, hmore, herr⟩
          · exact .inl ⟨t, .head hturn hturns, hend⟩
          · exact .inr ⟨t, .head hturn hturns, hlen ▸ hmore, herr⟩

/-- The package that is next is evaluated by whoever goes on to the end. -/
theorem Exhausted.lt_of_turns {n : Nat} (h : Exhausted s n) (hturns : Turns layout w s t)
    (hdone : t.Complete) : n < t.evaluated.length := by
  obtain ⟨task, rest, hqueue, hnew⟩ := h.next
  rcases Relation.ReflTransGen.cases_head hturns with rfl | ⟨u, hturn, hturns⟩
  · rw [hdone.2] at hqueue
    cases hqueue
  · obtain rfl : u = _ := Turn.rightUnique layout w hturn (.take hqueue)
    have hlen := length_evaluated_le hturns
    rw [← h.evaluated]
    refine lt_of_lt_of_le ?_ hlen
    rcases perform_cases layout w { s with queue := rest } task with
      ⟨-, hknown⟩ | ⟨-, -, p, more, -, -, -, -, -, -, heq⟩ | ⟨-, -, fault, -, -, heq⟩
    · rw [show s.catalog.contains task.key = true from hknown h.fault] at hnew
      cases hnew
    · rw [heq, List.length_append]
      exact Nat.lt_succ_self _
    · rw [heq, List.length_append]
      exact Nat.lt_succ_self _

theorem load_eq_run (htasks : roots.mapM (rootTask layout) = .ok tasks) :
    load layout w roots = run layout w (w.capacity + tasks.length) {} tasks := by
  rw [load, htasks]
  rfl

/-- The turns of `load` lead to their end, or the workspace has no room for the packages. -/
theorem turns_load (htasks : roots.mapM (rootTask layout) = .ok tasks) :
    (∃ t, Turns layout w { roots := [], queue := tasks } t ∧ t.Complete ∧
      t.outcome = load layout w roots) ∨
    ∃ t, Turns layout w { roots := [], queue := tasks } t ∧
      Exhausted t (w.capacity + tasks.length) := by
  rw [load_eq_run htasks]
  rcases turns_run layout w (w.capacity + tasks.length) {} tasks
    (s := { roots := [], queue := tasks }) rfl rfl rfl rfl with hrun | ⟨t, hturns, hmore, -⟩
  · exact .inl hrun
  · exact .inr ⟨t, hturns, Nat.zero_add (w.capacity + tasks.length) ▸ hmore⟩

/-- First in, first out is a run, if it comes to an end without a fault. -/
theorem exists_run_of_load {c : Catalog} (h : load layout w roots = .ok c) :
    ∃ s, Reachable layout w roots s ∧ s.Complete ∧ s.outcome = .ok c := by
  cases htasks : roots.mapM (rootTask layout) with
  | error fault =>
      rw [load, htasks] at h
      cases h
  | ok tasks =>
      rw [load_eq_run htasks] at h
      rcases turns_run layout w (w.capacity + tasks.length) {} tasks
        (s := { roots := [], queue := tasks }) rfl rfl rfl rfl with
        ⟨s, hturns, hdone, hout⟩ | ⟨-, -, -, fault, herr⟩
      · exact ⟨s, reachable_of_turns htasks hturns, hdone, hout.trans h⟩
      · rw [h] at herr
        cases herr

/-- Whether loading from the root files ends with the catalog when the tasks are taken in
    some order. -/
def EndsIn (layout : Layout) (w : Workspace) (roots : List Path) (c : Catalog) : Prop :=
  ∃ s, Reachable layout w roots s ∧ s.Complete ∧ s.outcome = .ok c

end Buildwright.Loading
