import Buildwright.Proofs.Loading.Schedule

/-! # Loading from declaration files

    Where every root file is the declaration file of its package, a package has one file
    whatever led to it.  What is loaded is then a matter of the root files alone: the
    packages that they lead to.

    * `Needs` — the packages that the root files lead to;
    * `OwnFiles` — root files that are declaration files;
    * `Invariant`, `invariant_step` — what every step preserves. -/

namespace Buildwright.Loading

variable {layout : Layout} {w : Workspace} {roots : List Path} {ps : List Contents}
  {s t : Progress}

/-! ## The packages that are needed -/

/-- The packages of the root files, and those that rules of needed packages refer
    to. -/
inductive Needs (layout : Layout) (w : Workspace) (roots : List Path) : String → Prop where
  | root {file full : Path} {key : String} (hmem : file ∈ roots)
      (hkey : layout.packageOf file = .ok (key, full)) : Needs layout w roots key
  | dependency {key target : String} {file : Path} {calls : List Call} {call : Call}
      {d : Declaration} (hneeds : Needs layout w roots key)
      (hfile : layout.fileOf? key = some file) (heval : w.evaluate file = .ok calls)
      (hcall : call ∈ calls) (hd : Declaration.ofCall call file = .ok d)
      (htarget : target ∈ d.targets key) : Needs layout w roots target

/-- What a needed package refers to is needed. -/
theorem Needs.of_target {p : Contents} (h : Needs layout w roots p.key)
    (hp : p.Declared layout w) {target : String} (ht : target ∈ p.targets) :
    Needs layout w roots target := by
  obtain ⟨calls, heval, hds⟩ := hp.calls
  obtain ⟨d, hd, htarget⟩ := List.mem_flatMap.1 ht
  obtain ⟨call, hcall, hd⟩ := exists_of_mem_mapM hds hd
  exact .dependency h hp.file heval hcall hd htarget

/-- What a declaration of a package refers to is one of the targets of the package. -/
theorem mem_targets {p : Contents} (hp : p.Declared layout w) {file : Path} {calls : List Call}
    {call : Call} {d : Declaration} {target : String} (hfile : layout.fileOf? p.key = some file)
    (heval : w.evaluate file = .ok calls) (hcall : call ∈ calls)
    (hd : Declaration.ofCall call file = .ok d) (ht : target ∈ d.targets p.key) :
    target ∈ p.targets := by
  obtain rfl := Option.some.inj (hfile.symm.trans hp.file)
  obtain ⟨calls', heval', hds⟩ := hp.calls
  obtain rfl := Except.ok.inj (heval.symm.trans heval')
  obtain ⟨d', hd', hof⟩ := exists_mem_of_mapM hds hcall
  obtain rfl := Except.ok.inj (hd.symm.trans hof)
  exact List.mem_flatMap.2 ⟨d, hd', ht⟩

/-! ## What every step preserves -/

/-- What holds when the contents `ps` have been adopted, in this order, and root files are
    declaration files. -/
structure Invariant (layout : Layout) (w : Workspace) (roots : List Path) (ps : List Contents)
    (s : Progress) : Prop extends Filled layout w roots ps s where
  loads : ∀ p ∈ ps, p.Loads layout w
  needs : ∀ p ∈ ps, Needs layout w roots p.key
  queued : ∀ task ∈ s.queue,
    Needs layout w roots task.key ∧ layout.fileOf? task.key = some task.file
  fault : s.fault ≠ none →
    ∃ key, Needs layout w roots key ∧ ∀ p : Contents, p.key = key → ¬ p.Loads layout w
  evaluated : s.fault = none → s.evaluated = ps.map Contents.key

/-- Whether every root file is the declaration file of its own package. -/
def OwnFiles (layout : Layout) (roots : List Path) : Prop :=
  ∀ file ∈ roots, ∃ key full,
    layout.packageOf file = .ok (key, full) ∧ layout.fileOf? key = some full

/-- A declaration file is in a package, so it has a task. -/
theorem OwnFiles.exists_rootTask (hown : OwnFiles layout roots) {file : Path}
    (hfile : file ∈ roots) : ∃ task, rootTask layout file = .ok task := by
  obtain ⟨key, full, hkey, -⟩ := hown file hfile
  exact ⟨_, rootTask_of_packageOf hkey⟩

theorem OwnFiles.rootTask_ne_error (hown : OwnFiles layout roots) {file : Path} {fault : Fault}
    (hfile : file ∈ roots) : rootTask layout file ≠ .error fault := by
  obtain ⟨task, htask⟩ := hown.exists_rootTask hfile
  rw [htask]
  exact nofun

theorem invariant_start (layout : Layout) (w : Workspace) (roots : List Path) :
    Invariant layout w roots [] { roots } where
  toFilled := filled_start layout w roots
  loads _ h := absurd h List.not_mem_nil
  needs _ h := absurd h List.not_mem_nil
  queued _ h := absurd h List.not_mem_nil
  fault h := absurd rfl h
  evaluated _ := rfl

/-- Queueing the task of the next root file. -/
theorem invariant_root (h : Invariant layout w roots ps s) (hown : OwnFiles layout roots)
    {file : Path} {rest : List Path} {task : LoadTask} (hroots : s.roots = file :: rest)
    (htask : rootTask layout file = .ok task) :
    Invariant layout w roots ps { s with roots := rest, queue := s.queue ++ [task] } where
  toFilled := filled_root h.toFilled hroots htask
  loads := h.loads
  needs := h.needs
  queued := by
    intro t ht
    rcases List.mem_append.1 ht with ht | ht
    · exact h.queued t ht
    · have hfile : file ∈ roots := h.pending file (hroots ▸ List.mem_cons_self ..)
      obtain ⟨key, full, hkey, hfull⟩ := hown file hfile
      have htask' := rootTask_eq_ok htask
      rw [hkey] at htask'
      cases htask'
      rw [List.mem_singleton.1 ht]
      exact ⟨.root hfile hkey, hfull⟩
  fault := h.fault
  evaluated := h.evaluated

/-- Skipping a task whose package is adopted, or skipping after a fault. -/
theorem invariant_skip (h : Invariant layout w roots ps s) {before after : List LoadTask}
    {task : LoadTask} (hqueue : s.queue = before ++ task :: after)
    (hskip : s.fault = none → task.key ∈ ps.map Contents.key) :
    Invariant layout w roots ps { s with queue := before ++ after } where
  toFilled := filled_skip h.toFilled hqueue hskip
  loads := h.loads
  needs := h.needs
  queued t ht := h.queued t (mem_queue_of_take hqueue ht)
  fault := h.fault
  evaluated := h.evaluated

/-- A task that fails shows a needed package that does not load. -/
theorem invariant_fail (h : Invariant layout w roots ps s) (fault : Fault) {task : LoadTask}
    (htask : Needs layout w roots task.key)
    (hwhy : ∀ p : Contents, p.key = task.key → p.Loads layout w →
      ∃ target ∈ p.targets, layout.fileOf? target = none) (evaluated : List String) :
    Invariant layout w roots ps { s with evaluated, fault := some fault } := by
  have hbroken : ∃ key, Needs layout w roots key ∧
      ∀ p : Contents, p.key = key → ¬ p.Loads layout w := by
    by_cases hloads : ∃ p : Contents, p.key = task.key ∧ p.Loads layout w
    · obtain ⟨p, hkey, hp⟩ := hloads
      -- the package itself loads, so one that it refers to has no declaration file
      obtain ⟨target, htarget, hnone⟩ := hwhy p hkey hp
      refine ⟨target, .of_target (hkey ▸ htask) hp.declared htarget, fun q hq hload => ?_⟩
      have hfile := hload.declared.file
      rw [hq, hnone] at hfile
      cases hfile
    · exact ⟨task.key, htask, fun p hkey hp => hloads ⟨p, hkey, hp⟩⟩
  exact {
    toFilled := filled_fail h.toFilled fault evaluated
    loads := h.loads
    needs := h.needs
    queued := h.queued
    fault := fun _ => hbroken
    evaluated := fun hnone => absurd hnone (Option.some_ne_none fault) }

/-- A task that succeeds adopts its package and queues what the package refers to. -/
theorem invariant_adopt (h : Invariant layout w roots ps s) (hnone : s.fault = none)
    {before after : List LoadTask} {task : LoadTask} (hqueue : s.queue = before ++ task :: after)
    {p : Contents} {tasks : List LoadTask} (hkey : p.key = task.key) (hfile : p.file = task.file)
    (hp : p.Sound w) (hnew : task.key ∉ ps.map Contents.key)
    (hcov : ∀ target ∈ p.targets,
      (s.catalog.adopt p).contains target = true ∨ ∃ t ∈ tasks, t.key = target)
    (htasks : ∀ t ∈ tasks, t.key ∈ p.targets ∧ layout.fileOf? t.key = some t.file) :
    Invariant layout w roots (ps ++ [p]) { s with
      queue := before ++ after ++ tasks
      catalog := s.catalog.adopt p
      evaluated := s.evaluated ++ [task.key] } := by
  have htask := h.queued task (hqueue ▸ List.mem_append_right _ (List.mem_cons_self ..))
  have hloads : p.Loads layout w := hp.loads (hkey ▸ hfile ▸ htask.2)
  have hneeds : Needs layout w roots p.key := hkey ▸ htask.1
  exact {
    toFilled := filled_adopt h.toFilled hnone hqueue hkey hfile hp hnew hcov htasks
    loads := forall_mem_concat h.loads hloads
    needs := forall_mem_concat h.needs hneeds
    queued := by
      intro t ht
      rcases List.mem_append.1 ht with ht | ht
      · exact h.queued t (mem_queue_of_take hqueue ht)
      · exact ⟨hneeds.of_target hloads.declared (htasks t ht).1, (htasks t ht).2⟩
    fault := fun hsome => absurd hnone hsome
    evaluated := fun _ => by
      rw [List.map_append, List.map_singleton, h.evaluated hnone, hkey] }

/-- Every step preserves the invariant. -/
theorem invariant_step (h : Invariant layout w roots ps s) (hown : OwnFiles layout roots)
    (hstep : Step layout w s t) : ∃ qs, Invariant layout w roots qs t := by
  cases hstep with
  | root hroots htask => exact ⟨ps, invariant_root h hown hroots htask⟩
  | refuse hroots htask =>
      exact absurd htask (hown.rootTask_ne_error (h.pending _ (hroots ▸ List.mem_cons_self ..)))
  | @task before after task hqueue =>
      have htask := h.queued task (hqueue ▸ List.mem_append_right _ (List.mem_cons_self ..))
      rcases perform_cases layout w { s with queue := before ++ after } task with
        ⟨heq, hknown⟩ | ⟨hnone, hnew, p, tasks, hkey, hfile, hp, hcov, htasks, -, heq⟩ |
          ⟨-, -, fault, hwhy, -, heq⟩
      · rw [heq]
        exact ⟨ps, invariant_skip h hqueue fun hnone => h.contains_iff.1 (hknown hnone)⟩
      · rw [heq]
        have hnew' := h.notMem_keys hnew
        exact ⟨ps ++ [p], invariant_adopt h hnone hqueue hkey hfile hp hnew' hcov htasks⟩
      · rw [heq]
        have hwhy' : ∀ p : Contents, p.key = task.key → p.Loads layout w →
            ∃ target ∈ p.targets, layout.fileOf? target = none := by
          intro p hkey hp
          refine hwhy p hkey (Option.some.inj ?_) hp.sound
          rw [← hp.declared.file, hkey]
          exact htask.2
        have hfail := invariant_fail h fault htask.1 hwhy' (s.evaluated ++ [task.key])
        exact ⟨ps, invariant_skip hfail hqueue fun hnone' => absurd hnone' (Option.some_ne_none _)⟩

/-- Every run preserves the invariant. -/
theorem invariant_reachable (hown : OwnFiles layout roots) (h : Reachable layout w roots s) :
    ∃ ps, Invariant layout w roots ps s := by
  induction h with
  | refl => exact ⟨[], invariant_start layout w roots⟩
  | tail _ hstep ih =>
      obtain ⟨ps, hps⟩ := ih
      exact invariant_step hps hown hstep

end Buildwright.Loading
