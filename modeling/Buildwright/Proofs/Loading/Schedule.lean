import Buildwright.Proofs.Loading.Task
import Buildwright.Proofs.Package.Renumbering
import Mathlib.Logic.Relation

/-! # Loading in any order

    Tasks are queued while others run, and any queued task can be the next.
    `Step` is one move of this system: the task of the next root file is queued,
    or a queued task is run, or it is skipped because there is a fault.  What a
    run has adopted is kept as a list of contents; the catalog is theirs, in the
    order in which they were adopted, and everything they refer to is adopted
    or queued.  Nothing is asked of the root files: any file can stand for its package.

    * `Progress`, `Step`, `Reachable` — the runs of loading;
    * `Filled`, `filled_step` — what every step preserves;
    * `filled_reachable` — what every run preserves. -/

namespace Buildwright.Loading

variable {layout : Layout} {w : Workspace} {roots : List Path}

/-! ## Runs -/

/-- How far loading is between two steps. -/
structure Progress where
  /-- Root files whose tasks are not queued yet. -/
  roots : List Path
  queue : List LoadTask := []
  catalog : Catalog := {}
  /-- The packages whose declaration files were evaluated, in order. -/
  evaluated : List String := []
  /-- The first fault. -/
  fault : Option Fault := none

namespace Progress

/-- Whether nothing is left to be done. -/
def Complete (s : Progress) : Prop :=
  s.roots = [] ∧ s.queue = []

/-- What loading gives when it is complete. -/
def outcome (s : Progress) : Outcome Catalog :=
  match s.fault with
  | some fault => .error fault
  | none => .ok s.catalog

theorem outcome_eq_ok_iff {s : Progress} {c : Catalog} :
    s.outcome = .ok c ↔ s.fault = none ∧ s.catalog = c := by
  rw [outcome]
  cases s.fault with
  | none => simp
  | some fault => simp

/-- Run a task that was taken from the queue. After a fault tasks are skipped, so what a
    failing task has done to the catalog is never seen. -/
def perform (layout : Layout) (w : Workspace) (s : Progress) (task : LoadTask) : Progress :=
  if s.fault.isSome ∨ s.catalog.contains task.key then s
  else
    match loadPackage layout w s.catalog task with
    | .error fault =>
      { s with evaluated := s.evaluated ++ [task.key], fault := some fault }
    | .ok (catalog, tasks) =>
      { s with evaluated := s.evaluated ++ [task.key], catalog, queue := s.queue ++ tasks }

end Progress

/-- The steps of loading. -/
inductive Step (layout : Layout) (w : Workspace) : Progress → Progress → Prop where
  /-- The task of the next root file is queued. -/
  | root {s : Progress} {file : Path} {rest : List Path} {task : LoadTask}
      (hroots : s.roots = file :: rest) (htask : rootTask layout file = .ok task) :
      Step layout w s { s with roots := rest, queue := s.queue ++ [task] }
  /-- A root file outside the project ends loading. -/
  | refuse {s : Progress} {file : Path} {rest : List Path} {fault : Fault}
      (hroots : s.roots = file :: rest) (htask : rootTask layout file = .error fault) :
      Step layout w s { s with roots := [], queue := [], fault := some fault }
  /-- A task is taken from anywhere in the queue. -/
  | task {s : Progress} {before after : List LoadTask} {task : LoadTask}
      (hqueue : s.queue = before ++ task :: after) :
      Step layout w s ({ s with queue := before ++ after }.perform layout w task)

/-- Whether steps lead from the root files to a progress. -/
def Reachable (layout : Layout) (w : Workspace) (roots : List Path) : Progress → Prop :=
  Relation.ReflTransGen (Step layout w) { roots }

/-- A run ends only when nothing is left to be done. -/
theorem complete_iff {s : Progress} : s.Complete ↔ ¬ ∃ t, Step layout w s t := by
  constructor
  · rintro ⟨hroots, hqueue⟩ ⟨t, hstep⟩
    cases hstep with
    | root h _ => exact List.cons_ne_nil _ _ (h.symm.trans hroots)
    | refuse h _ => exact List.cons_ne_nil _ _ (h.symm.trans hroots)
    | task h =>
        rw [hqueue] at h
        simp at h
  · intro hstuck
    constructor
    · cases hroots : s.roots with
      | nil => rfl
      | cons file rest =>
          cases htask : rootTask layout file with
          | error fault => exact absurd ⟨_, .refuse hroots htask⟩ hstuck
          | ok task => exact absurd ⟨_, .root hroots htask⟩ hstuck
    · cases hqueue : s.queue with
      | nil => rfl
      | cons task rest =>
          exact absurd ⟨_, .task (show s.queue = [] ++ task :: rest from hqueue)⟩ hstuck

/-! ## What every step preserves -/

/-- Whether a package is adopted or waits in the queue. -/
def Covered (ps : List Contents) (s : Progress) (key : String) : Prop :=
  key ∈ ps.map Contents.key ∨ ∃ task ∈ s.queue, task.key = key

/-- When nothing is left to be done, nothing waits. -/
theorem Covered.mem_keys {ps : List Contents} {s : Progress} {key : String}
    (h : Covered ps s key) (hdone : s.Complete) : key ∈ ps.map Contents.key := by
  rcases h with hk | ⟨task, htask, -⟩
  · exact hk
  · rw [hdone.2] at htask
    exact absurd htask List.not_mem_nil

/-- Whether a file stands for a package: as a root file, or as its declaration file. -/
def StandsFor (layout : Layout) (roots : List Path) (key : String) (file : Path) : Prop :=
  (∃ root ∈ roots, layout.packageOf root = .ok (key, file)) ∨ layout.fileOf? key = some file

/-- Whether a set of packages has those of the root files, and all that its members among
    the contents refer to. -/
structure ClosedUnder (layout : Layout) (roots : List Path) (ps : List Contents)
    (K : String → Prop) : Prop where
  roots : ∀ file ∈ roots, ∀ key full, layout.packageOf file = .ok (key, full) → K key
  targets : ∀ p ∈ ps, K p.key → ∀ target ∈ p.targets, K target

/-- What holds when the contents `ps` have been adopted, in this order. -/
structure Filled (layout : Layout) (w : Workspace) (roots : List Path) (ps : List Contents)
    (s : Progress) : Prop where
  catalog : s.catalog = Catalog.adoptAll {} ps
  nodup : (ps.map Contents.key).Nodup
  sound : ∀ p ∈ ps, p.Sound w
  files : ∀ p ∈ ps, StandsFor layout roots p.key p.file
  taskFiles : ∀ task ∈ s.queue, StandsFor layout roots task.key task.file
  pending : ∀ file ∈ s.roots, file ∈ roots
  rootsCovered : s.fault = none → ∀ file ∈ roots, ∀ key full,
    layout.packageOf file = .ok (key, full) → file ∈ s.roots ∨ Covered ps s key
  targetsCovered : s.fault = none → ∀ p ∈ ps, ∀ target ∈ p.targets, Covered ps s target
  least : ∀ K : String → Prop, ClosedUnder layout roots ps K →
    (∀ p ∈ ps, K p.key) ∧ ∀ task ∈ s.queue, K task.key

variable {ps : List Contents} {s t : Progress}

theorem Filled.contains_iff (h : Filled layout w roots ps s) {key : String} :
    s.catalog.contains key = true ↔ key ∈ ps.map Contents.key := by
  rw [h.catalog, Catalog.contains_adoptAll_empty]

theorem Filled.notMem_keys (h : Filled layout w roots ps s) {key : String}
    (hnew : s.catalog.contains key = false) : key ∉ ps.map Contents.key := by
  rw [← h.contains_iff, hnew]
  exact Bool.false_ne_true

/-- At the end of a good run the packages of the root files are adopted. -/
theorem Filled.mem_keys_of_root (h : Filled layout w roots ps s) (hdone : s.Complete)
    (hnone : s.fault = none) {file full : Path} {key : String} (hfile : file ∈ roots)
    (hkey : layout.packageOf file = .ok (key, full)) : key ∈ ps.map Contents.key := by
  rcases h.rootsCovered hnone file hfile key full hkey with hpending | hcov
  · rw [hdone.1] at hpending
    exact absurd hpending List.not_mem_nil
  · exact hcov.mem_keys hdone

theorem filled_start (layout : Layout) (w : Workspace) (roots : List Path) :
    Filled layout w roots [] { roots } where
  catalog := rfl
  nodup := List.nodup_nil
  sound _ h := absurd h List.not_mem_nil
  files _ h := absurd h List.not_mem_nil
  taskFiles _ h := absurd h List.not_mem_nil
  pending _ h := h
  rootsCovered _ _ hmem _ _ _ := .inl hmem
  targetsCovered _ _ h := absurd h List.not_mem_nil
  least _ _ := ⟨fun _ h => absurd h List.not_mem_nil, fun _ h => absurd h List.not_mem_nil⟩

theorem rootTask_of_packageOf {file full : Path} {key : String}
    (h : layout.packageOf file = .ok (key, full)) :
    rootTask layout file = .ok { key, file := full } := by
  rw [rootTask, h]
  rfl

theorem rootTask_eq_ok {file : Path} {task : LoadTask} (h : rootTask layout file = .ok task) :
    layout.packageOf file = .ok (task.key, task.file) := by
  rw [rootTask] at h
  cases hkey : layout.packageOf file with
  | error fault =>
      rw [hkey] at h
      cases h
  | ok found =>
      rw [hkey] at h
      cases h
      rfl

/-- Queueing the task of the next root file. -/
theorem filled_root (h : Filled layout w roots ps s) {file : Path} {rest : List Path}
    {task : LoadTask} (hroots : s.roots = file :: rest) (htask : rootTask layout file = .ok task) :
    Filled layout w roots ps { s with roots := rest, queue := s.queue ++ [task] } := by
  have hfile : file ∈ roots := h.pending file (hroots ▸ List.mem_cons_self ..)
  have hkey := rootTask_eq_ok htask
  have hcovered : ∀ k, Covered ps s k →
      Covered ps { s with roots := rest, queue := s.queue ++ [task] } k := by
    rintro k (hk | ⟨t, ht, hk⟩)
    · exact .inl hk
    · exact .inr ⟨t, List.mem_append_left _ ht, hk⟩
  exact {
    catalog := h.catalog
    nodup := h.nodup
    sound := h.sound
    files := h.files
    taskFiles := by
      intro t ht
      rcases List.mem_append.1 ht with ht | ht
      · exact h.taskFiles t ht
      · rw [List.mem_singleton.1 ht]
        exact .inl ⟨file, hfile, hkey⟩
    pending := fun f hf => h.pending f (hroots ▸ List.mem_cons_of_mem _ hf)
    rootsCovered := by
      intro hnone f hf k full hk
      rcases h.rootsCovered hnone f hf k full hk with hmem | hcov
      · rw [hroots] at hmem
        rcases List.mem_cons.1 hmem with rfl | hmem
        · -- the root file whose task has just been queued
          rw [hkey] at hk
          cases hk
          exact .inr (.inr ⟨task, List.mem_append_right _ (List.mem_singleton_self _), rfl⟩)
        · exact .inl hmem
      · exact .inr (hcovered k hcov)
    targetsCovered := fun hnone p hp target ht => hcovered target (h.targetsCovered hnone p hp target ht)
    least := by
      intro K hK
      obtain ⟨hps, hqueue⟩ := h.least K hK
      refine ⟨hps, fun t ht => ?_⟩
      rcases List.mem_append.1 ht with ht | ht
      · exact hqueue t ht
      · rw [List.mem_singleton.1 ht]
        exact hK.roots file hfile _ _ hkey }

theorem mem_queue_of_take {before after : List LoadTask} {task other : LoadTask}
    (hqueue : s.queue = before ++ task :: after) (h : other ∈ before ++ after) :
    other ∈ s.queue := by
  rw [hqueue, List.mem_append, List.mem_cons]
  rcases List.mem_append.1 h with hb | ha
  · exact .inl hb
  · exact .inr (.inr ha)

theorem mem_keys_concat {p : Contents} {key : String} :
    key ∈ (ps ++ [p]).map Contents.key ↔ key ∈ ps.map Contents.key ∨ key = p.key := by
  rw [List.map_append, List.mem_append, List.map_singleton, List.mem_singleton]

/-- What holds of the contents and of one more holds of all. -/
theorem forall_mem_concat {P : Contents → Prop} {p : Contents} (h : ∀ q ∈ ps, P q) (hp : P p) :
    ∀ q ∈ ps ++ [p], P q := by
  intro q hq
  rcases List.mem_append.1 hq with hq | hq
  · exact h q hq
  · rw [List.mem_singleton.1 hq]
    exact hp

/-- What is covered stays so when a task is taken, apart from the package of the task. -/
theorem Covered.take {before after : List LoadTask} {task : LoadTask} {key : String}
    (h : Covered ps s key) (hqueue : s.queue = before ++ task :: after) :
    key = task.key ∨ Covered ps { s with queue := before ++ after } key := by
  rcases h with hk | ⟨t, ht, rfl⟩
  · exact .inr (.inl hk)
  · rw [hqueue, List.mem_append, List.mem_cons] at ht
    rcases ht with ht | rfl | ht
    · exact .inr (.inr ⟨t, List.mem_append_left _ ht, rfl⟩)
    · exact .inl rfl
    · exact .inr (.inr ⟨t, List.mem_append_right _ ht, rfl⟩)

/-- Skipping a task whose package is adopted, or skipping after a fault. -/
theorem filled_skip (h : Filled layout w roots ps s) {before after : List LoadTask}
    {task : LoadTask} (hqueue : s.queue = before ++ task :: after)
    (hskip : s.fault = none → task.key ∈ ps.map Contents.key) :
    Filled layout w roots ps { s with queue := before ++ after } := by
  have hcovered : s.fault = none → ∀ k, Covered ps s k →
      Covered ps { s with queue := before ++ after } k := by
    intro hnone k hk
    rcases hk.take hqueue with rfl | hk
    · exact .inl (hskip hnone)
    · exact hk
  exact {
    catalog := h.catalog
    nodup := h.nodup
    sound := h.sound
    files := h.files
    taskFiles := fun t ht => h.taskFiles t (mem_queue_of_take hqueue ht)
    pending := h.pending
    rootsCovered := fun hnone f hf k full hk =>
      (h.rootsCovered hnone f hf k full hk).imp id (hcovered hnone k)
    targetsCovered := fun hnone p hp target ht =>
      hcovered hnone target (h.targetsCovered hnone p hp target ht)
    least := fun K hK =>
      ⟨(h.least K hK).1, fun t ht => (h.least K hK).2 t (mem_queue_of_take hqueue ht)⟩ }

/-- After a fault nothing more has to be covered. -/
theorem filled_fail (h : Filled layout w roots ps s) (fault : Fault) (evaluated : List String) :
    Filled layout w roots ps { s with evaluated, fault := some fault } where
  catalog := h.catalog
  nodup := h.nodup
  sound := h.sound
  files := h.files
  taskFiles := h.taskFiles
  pending := h.pending
  rootsCovered hnone := absurd hnone (Option.some_ne_none fault)
  targetsCovered hnone := absurd hnone (Option.some_ne_none fault)
  least := h.least

/-- A refused root file leaves nothing to be done. -/
theorem filled_refuse (h : Filled layout w roots ps s) (fault : Fault) :
    Filled layout w roots ps { s with roots := [], queue := [], fault := some fault } where
  catalog := h.catalog
  nodup := h.nodup
  sound := h.sound
  files := h.files
  taskFiles _ ht := absurd ht List.not_mem_nil
  pending _ hf := absurd hf List.not_mem_nil
  rootsCovered hnone := absurd hnone (Option.some_ne_none fault)
  targetsCovered hnone := absurd hnone (Option.some_ne_none fault)
  least K hK := ⟨(h.least K hK).1, fun _ ht => absurd ht List.not_mem_nil⟩

/-- A task that succeeds adopts its package and queues what the package refers to. -/
theorem filled_adopt (h : Filled layout w roots ps s) (hnone : s.fault = none)
    {before after : List LoadTask} {task : LoadTask} (hqueue : s.queue = before ++ task :: after)
    {p : Contents} {tasks : List LoadTask} (hkey : p.key = task.key) (hfile : p.file = task.file)
    (hp : p.Sound w) (hnew : task.key ∉ ps.map Contents.key)
    (hcov : ∀ target ∈ p.targets,
      (s.catalog.adopt p).contains target = true ∨ ∃ t ∈ tasks, t.key = target)
    (htasks : ∀ t ∈ tasks, t.key ∈ p.targets ∧ layout.fileOf? t.key = some t.file) :
    Filled layout w roots (ps ++ [p]) { s with
      queue := before ++ after ++ tasks
      catalog := s.catalog.adopt p
      evaluated := s.evaluated ++ [task.key] } := by
  have htask : task ∈ s.queue := hqueue ▸ List.mem_append_right _ (List.mem_cons_self ..)
  have hkeys : (ps ++ [p]).map Contents.key = ps.map Contents.key ++ [p.key] := by simp
  -- the package of the task waits no longer, and is adopted
  have hcovered : ∀ k, Covered ps s k → Covered (ps ++ [p]) { s with
      queue := before ++ after ++ tasks
      catalog := s.catalog.adopt p
      evaluated := s.evaluated ++ [task.key] } k := by
    intro k hk
    rcases hk.take hqueue with rfl | hk | ⟨t, ht, rfl⟩
    · exact .inl (mem_keys_concat.2 (.inr hkey.symm))
    · exact .inl (mem_keys_concat.2 (.inl hk))
    · exact .inr ⟨t, List.mem_append_left _ ht, rfl⟩
  exact {
    catalog := by
      rw [h.catalog, Catalog.adoptAll_concat]
    nodup := by
      rw [hkeys, hkey]
      exact List.nodup_append_comm.2 (List.nodup_cons.2 ⟨hnew, h.nodup⟩)
    sound := forall_mem_concat h.sound hp
    files := forall_mem_concat h.files (hkey ▸ hfile ▸ h.taskFiles task htask)
    taskFiles := by
      intro t ht
      rcases List.mem_append.1 ht with ht | ht
      · exact h.taskFiles t (mem_queue_of_take hqueue ht)
      · exact .inr (htasks t ht).2
    pending := h.pending
    rootsCovered := fun _ f hf k full hk =>
      (h.rootsCovered hnone f hf k full hk).imp id (hcovered k)
    targetsCovered := by
      intro _
      refine forall_mem_concat
        (fun q hq target ht => hcovered target (h.targetsCovered hnone q hq target ht)) ?_
      intro target ht
      rcases hcov target ht with hknown | ⟨t, hmem, rfl⟩
      · rw [Catalog.contains_adopt, h.contains_iff] at hknown
        rcases hknown with rfl | hknown
        · exact .inl (mem_keys_concat.2 (.inr rfl))
        · exact .inl (mem_keys_concat.2 (.inl hknown))
      · exact .inr ⟨t, List.mem_append_right _ hmem, rfl⟩
    least := by
      intro K hK
      obtain ⟨hps, hqueued⟩ := h.least K
        ⟨hK.roots, fun q hq => hK.targets q (List.mem_append_left _ hq)⟩
      have hpK : K p.key := hkey ▸ hqueued task htask
      refine ⟨forall_mem_concat hps hpK, fun t ht => ?_⟩
      rcases List.mem_append.1 ht with ht | ht
      · exact hqueued t (mem_queue_of_take hqueue ht)
      · exact hK.targets p (List.mem_append_right _ (List.mem_singleton_self p)) hpK _
          (htasks t ht).1 }

/-- The three ways in which a task can end. -/
theorem perform_cases (layout : Layout) (w : Workspace) (s : Progress) (task : LoadTask) :
    (s.perform layout w task = s ∧ (s.fault = none → s.catalog.contains task.key = true)) ∨
    (s.fault = none ∧ s.catalog.contains task.key = false ∧ ∃ p tasks, p.key = task.key ∧
      p.file = task.file ∧ p.Sound w ∧
      (∀ target ∈ p.targets,
        (s.catalog.adopt p).contains target = true ∨ ∃ t ∈ tasks, t.key = target) ∧
      (∀ t ∈ tasks, t.key ∈ p.targets ∧ layout.fileOf? t.key = some t.file) ∧
      loadPackage layout w s.catalog task = .ok (s.catalog.adopt p, tasks) ∧
      s.perform layout w task = { s with
        queue := s.queue ++ tasks
        catalog := s.catalog.adopt p
        evaluated := s.evaluated ++ [task.key] }) ∨
    (s.fault = none ∧ s.catalog.contains task.key = false ∧ ∃ fault,
      (∀ p : Contents, p.key = task.key → p.file = task.file → p.Sound w →
        ∃ target ∈ p.targets, layout.fileOf? target = none) ∧
      loadPackage layout w s.catalog task = .error fault ∧
      s.perform layout w task =
        { s with evaluated := s.evaluated ++ [task.key], fault := some fault }) := by
  rw [Progress.perform]
  by_cases hskip : s.fault.isSome ∨ s.catalog.contains task.key
  · rw [if_pos hskip]
    refine .inl ⟨rfl, fun hnone => ?_⟩
    rcases hskip with hsome | hknown
    · rw [hnone] at hsome
      cases hsome
    · exact hknown
  · rw [if_neg hskip]
    rw [not_or, Bool.not_eq_true, Bool.not_eq_true, Option.isSome_eq_false_iff,
      Option.isNone_iff_eq_none] at hskip
    obtain ⟨hnone, hnew⟩ := hskip
    rcases @loadPackage_spec layout w s.catalog task hnew with
      ⟨p, tasks, hkey, hfile, hp, hok, hcov, htasks⟩ | ⟨fault, herr, hwhy⟩
    · rw [hok]
      exact .inr (.inl ⟨hnone, hnew, p, tasks, hkey, hfile, hp, hcov, htasks, rfl, rfl⟩)
    · rw [herr]
      exact .inr (.inr ⟨hnone, hnew, fault, hwhy, rfl, rfl⟩)

/-- Every step preserves what holds of the contents that have been adopted. -/
theorem filled_step (h : Filled layout w roots ps s) (hstep : Step layout w s t) :
    ∃ qs, Filled layout w roots qs t := by
  cases hstep with
  | root hroots htask => exact ⟨ps, filled_root h hroots htask⟩
  | @refuse file rest fault hroots htask => exact ⟨ps, filled_refuse h fault⟩
  | @task before after task hqueue =>
      rcases perform_cases layout w { s with queue := before ++ after } task with
        ⟨heq, hknown⟩ | ⟨hnone, hnew, p, tasks, hkey, hfile, hp, hcov, htasks, -, heq⟩ |
          ⟨-, -, fault, -, -, heq⟩
      · rw [heq]
        exact ⟨ps, filled_skip h hqueue fun hnone => h.contains_iff.1 (hknown hnone)⟩
      · rw [heq]
        have hnew' := h.notMem_keys hnew
        exact ⟨ps ++ [p], filled_adopt h hnone hqueue hkey hfile hp hnew' hcov htasks⟩
      · rw [heq]
        have hfail := filled_fail h fault (s.evaluated ++ [task.key])
        exact ⟨ps, filled_skip hfail hqueue fun hnone => absurd hnone (Option.some_ne_none _)⟩

/-- Every run preserves what holds of the contents that have been adopted. -/
theorem filled_reachable (h : Reachable layout w roots s) : ∃ ps, Filled layout w roots ps s := by
  induction h with
  | refl => exact ⟨[], filled_start layout w roots⟩
  | tail _ hstep ih =>
      obtain ⟨ps, hps⟩ := ih
      exact filled_step hps hstep

end Buildwright.Loading
