import Buildwright.Proofs.FileTree.Missing
import Buildwright.Proofs.Loading.BreadthFirst

/-! # Dependencies on packages that are not there

    A package whose declaration file is missing is found out when its task is run, long
    after the rule that refers to it.  So every task carries the rule and the text that led
    to it, and a file that is not found is made the fault of that rule.  The fault of a
    whole run can then be traced back to a dependency: when nothing else is wrong, loading
    ends at a dependency on a package that has no file.  But only a file that is not found is
    its fault; when something else is in the way of the file, loading ends with the refusal.

    * `PackageRun.Makes` — the tasks that a package makes are among those it mentions;
    * `Traced`, `traced_step`, `traced_reachable` — where tasks and faults come from;
    * `MayReach`, `MustReach` — the packages that root files can lead to, and always do;
    * `EndsMissing` — the ends at a missing package;
    * `missing_package_ends_loading` — nothing but such ends. -/

namespace Buildwright

/-- The fault of a rule that refers to the builtin tree, where there is none. -/
def noBuiltin (rule raw : String) : Fault :=
  .dependencyNotFound rule (raw ++ " (no builtin root is configured)")

/-- Whether a fault is that of the rule `rule` of the package `key`, which refers as `raw` to a
    package that can have no declaration file. -/
def LacksTree (layout : Layout) (key rule raw : String) (fault : Fault) : Prop :=
  ∃ target, Reference.target? key raw = some target ∧ layout.fileOf? target = none ∧
    fault = noBuiltin rule raw

/-- Whether a fault is that of a dependency of a declaration in the package `key`. -/
def Declaration.LacksTree (layout : Layout) (key : String) (d : Declaration) (fault : Fault) :
    Prop :=
  ∃ raw ∈ d.deps, Buildwright.LacksTree layout key (d.fullName key) raw fault

/-! ## The tasks that a package makes -/

namespace PackageRun

/-- What becomes of a run that has made the tasks `made`: it goes on with the catalog `c` and
    has no tasks beside them and those that are mentioned, or it ends at one of the faults. -/
inductive Makes (made : List LoadTask) (c : Catalog) (mentions : List LoadTask)
    (faults : Fault → Prop) : Outcome PackageRun → Prop where
  | ok {run : PackageRun} (hcatalog : run.catalog = c) (htasks : run.tasks ⊆ made ++ mentions) :
      Makes made c mentions faults (.ok run)
  | error {fault : Fault} (hfault : faults fault) : Makes made c mentions faults (.error fault)

variable {layout : Layout} {c c' : Catalog} {p : Contents} {run : PackageRun} {file : Path}
  {made mentions mentions' : List LoadTask} {faults faults' : Fault → Prop} {id : RuleId}
  {key rule raw target : String}

theorem Makes.mono {out : Outcome PackageRun} (h : Makes made c mentions faults out)
    (hfaults : ∀ fault, faults fault → faults' fault) : Makes made c mentions faults' out := by
  cases h with
  | ok hcatalog htasks => exact .ok hcatalog htasks
  | error hfault => exact .error (hfaults _ hfault)

/-- One part of a run after the other. -/
theorem Makes.bind {out : Outcome PackageRun} {f : PackageRun → Outcome PackageRun}
    (h : Makes made c mentions faults out)
    (hf : ∀ run, run.catalog = c → Makes run.tasks c' mentions' faults (f run)) :
    Makes made c' (mentions ++ mentions') faults (out >>= f) := by
  cases h with
  | error hfault => exact .error hfault
  | @ok run hcatalog htasks =>
      have hrest := hf run hcatalog
      show Makes made c' (mentions ++ mentions') faults (f run)
      generalize f run = out at hrest
      cases hrest with
      | error hfault => exact .error hfault
      | ok hcatalog' htasks' =>
          refine .ok hcatalog' (List.Subset.trans htasks' ?_)
          rw [← List.append_assoc]
          exact List.append_subset.2 ⟨List.subset_append_of_subset_left _ htasks,
            List.subset_append_right _ _⟩

/-- A run that changes nothing makes no tasks. -/
theorem Makes.pure (mentions : List LoadTask) (faults : Fault → Prop) :
    Makes run.tasks run.catalog mentions faults (.ok run) :=
  .ok rfl (List.subset_append_left _ _)

theorem refer_makes (hrule : (run.catalog.rule? id).map Rule.fullName = some rule) :
    Makes run.tasks run.catalog (LoadTask.to? layout rule raw target).toList
      (fun fault => layout.fileOf? target = none ∧ fault = noBuiltin rule raw)
      (run.refer layout id raw target) := by
  have hrefer := refer_cases layout id raw target run
  generalize run.refer layout id raw target = out at hrefer ⊢
  cases hrefer with
  | seen _ => exact .pure _ _
  | known _ _ => exact .ok rfl (List.subset_append_left _ _)
  | lost _ _ hfile =>
      rw [hrule]
      exact .error ⟨hfile, rfl⟩
  | task _ _ hfile =>
      rw [hrule, LoadTask.to?, hfile]
      exact .ok rfl (List.Subset.refl _)

theorem follow_makes (hrule : (run.catalog.rule? id).map Rule.fullName = some rule)
    (hparse : ∃ target, Reference.target? key raw = some target) :
    Makes run.tasks run.catalog (LoadTask.of? layout key rule raw).toList
      (LacksTree layout key rule raw) (run.follow layout key id raw) := by
  obtain ⟨reference, hreference⟩ := Reference.exists_target?_iff.1 hparse
  have htarget : Reference.target? key raw = some (reference.resolve key) := by
    rw [Reference.target?, hreference]
  rw [follow_of_parse hreference, LoadTask.of?, htarget, Option.bind_some]
  by_cases hself : reference.position = .this ∨ reference.resolve key = key
  · rw [if_pos hself]
    exact .pure _ _
  · rw [if_neg hself]
    refine (refer_makes hrule).mono ?_
    rintro fault ⟨hfile, rfl⟩
    exact ⟨_, htarget, hfile, rfl⟩

/-- The dependencies of a rule make no tasks beside those that they mention. -/
theorem foldlM_follow_makes (run : PackageRun) (deps : List String)
    (hrule : (run.catalog.rule? id).map Rule.fullName = some rule)
    (hparse : ∀ raw ∈ deps, ∃ target, Reference.target? key raw = some target) :
    Makes run.tasks run.catalog (deps.filterMap (LoadTask.of? layout key rule))
      (fun fault => ∃ raw ∈ deps, LacksTree layout key rule raw fault)
      (deps.foldlM (fun run raw => run.follow layout key id raw) run) := by
  induction deps generalizing run with
  | nil => exact .pure _ _
  | cons raw rest ih =>
      obtain ⟨hfirst, hrest⟩ := List.forall_mem_cons.1 hparse
      have hmentions : (raw :: rest).filterMap (LoadTask.of? layout key rule) =
          (LoadTask.of? layout key rule raw).toList ++
            rest.filterMap (LoadTask.of? layout key rule) := by
        rw [List.filterMap_cons]
        cases LoadTask.of? layout key rule raw <;> rfl
      rw [List.foldlM_cons, hmentions]
      refine ((follow_makes hrule hfirst).mono fun fault hfault => ?_).bind fun run' hcatalog => ?_
      · exact ⟨raw, List.mem_cons_self .., hfault⟩
      · rw [← hcatalog] at hrule ⊢
        refine (ih run' hrule hrest).mono ?_
        rintro fault ⟨raw', hraw, hfault⟩
        exact ⟨raw', List.mem_cons_of_mem _ hraw, hfault⟩

/-- A call whose declaration is new makes no tasks beside those that it mentions. -/
theorem addCall_makes {call : Call} {d : Declaration} (hc : c.contains p.key = false)
    (hcatalog : run.catalog = c.adopt p .inProgress) (hd : Declaration.ofCall call file = .ok d)
    (hname : d.name ∉ p.names) (hparse : d.Parses) :
    Makes run.tasks (c.adopt (p.declare d) .inProgress) (d.mentions layout p.key)
      (d.LacksTree layout p.key) (run.addCall layout p.key file call) := by
  have hadd : run.addCall layout p.key file call =
      d.deps.foldlM (fun run raw => run.follow layout p.key
        (c.rules.length + p.declarations.length) raw)
        { run with catalog := c.adopt (p.declare d) .inProgress } := by
    rw [addCall, hd, hcatalog]
    simp only [bind, Except.bind, Catalog.addRule_adopt hc, if_neg hname]
  rw [hadd]
  have hrule := rule?_declare c p d .inProgress
  exact foldlM_follow_makes { run with catalog := c.adopt (p.declare d) .inProgress } d.deps hrule
    fun raw hraw => Reference.exists_target?_iff.2 (hparse raw hraw)

/-- The calls of a file make no tasks beside those that their declarations mention. -/
theorem foldlM_addCall_makes (layout : Layout) (calls : List Call) (hc : c.contains p.key = false)
    (hcatalog : run.catalog = c.adopt p .inProgress) {ds : List Declaration}
    (hds : calls.mapM (fun call => Declaration.ofCall call file) = .ok ds)
    (hparses : ∀ d ∈ ds, d.Parses) (hnames : (p.declareAll ds).names.Nodup) :
    Makes run.tasks (c.adopt (p.declareAll ds) .inProgress)
      (ds.flatMap (Declaration.mentions layout p.key))
      (fun fault => ∃ d ∈ ds, d.LacksTree layout p.key fault)
      (calls.foldlM (addCall layout p.key file) run) := by
  induction calls generalizing p run ds with
  | nil =>
      obtain rfl : [] = ds := Except.ok.inj hds
      rw [Contents.declareAll_nil, ← hcatalog]
      exact .pure _ _
  | cons call rest ih =>
      obtain ⟨d, ds, hd, hrest, rfl⟩ := mapM_cons_eq_ok_iff.1 hds
      obtain ⟨hparse, hparses⟩ := List.forall_mem_cons.1 hparses
      have hname : d.name ∉ p.names := by
        rw [Contents.names_declareAll, List.map_cons, List.nodup_middle, List.nodup_cons] at hnames
        exact fun hmem => hnames.1 (List.mem_append_left _ hmem)
      rw [Contents.declareAll_cons] at hnames ⊢
      rw [List.foldlM_cons, List.flatMap_cons]
      refine ((addCall_makes hc hcatalog hd hname hparse).mono fun fault hfault => ?_).bind
        fun run' hcatalog' => ?_
      · exact ⟨d, List.mem_cons_self .., hfault⟩
      · refine (ih (p := p.declare d) hc hcatalog' hrest hparses hnames).mono ?_
        rintro fault ⟨d', hd', hfault⟩
        exact ⟨d', List.mem_cons_of_mem _ hd', hfault⟩

end PackageRun

namespace Loading

variable {layout : Layout} {w : Workspace} {roots : List Path} {ps qs : List Contents}
  {s t : Progress} {task : LoadTask} {p : Contents} {c : Catalog}

/-- A task whose file is free of faults makes no tasks beside those that the package mentions,
    or fails at a dependency on the builtin tree, where there is none. -/
theorem loadPackage_makes (layout : Layout) (hc : c.contains task.key = false)
    (hkey : p.key = task.key) (hfile : p.file = task.file) (hp : p.Sound w) :
    (∃ c' tasks, loadPackage layout w c task = .ok (c', tasks) ∧ tasks ⊆ p.mentions layout) ∨
    (∃ fault, loadPackage layout w c task = .error fault ∧
      ∃ d ∈ p.declarations, d.LacksTree layout p.key fault) := by
  obtain ⟨calls, hcalls, hds⟩ := hp.calls
  rw [hfile] at hcalls hds
  rw [loadPackage, hcalls, Contents.mentions, hkey]
  have hnames : (Contents.declareAll ⟨task.key, task.file, []⟩ p.declarations).names.Nodup := by
    rw [Contents.names_declareAll]
    exact hp.names
  have hbegin : ({ catalog := c.begin task.key task.file } : PackageRun).catalog =
      c.adopt ⟨task.key, task.file, []⟩ .inProgress := Catalog.begin_eq_adopt task.file hc
  have hmakes := PackageRun.foldlM_addCall_makes layout calls hc hbegin hds hp.parses hnames
  simp only
  cases hrun : calls.foldlM (PackageRun.addCall layout task.key task.file)
      { catalog := c.begin task.key task.file } with
  | error fault =>
      rw [hrun] at hmakes
      cases hmakes with
      | error hfault =>
          -- the fault is no missing file, so nobody else is blamed for it
          obtain ⟨d, hd, raw, hraw, target, htarget, hnone, rfl⟩ := hfault
          exact .inr ⟨_, rfl, d, hd, raw, hraw, target, htarget, hnone, rfl⟩
  | ok run =>
      rw [hrun] at hmakes
      cases hmakes with
      | ok hcatalog htasks => exact .inl ⟨_, run.tasks, rfl, htasks⟩

/-! ## Where tasks and faults come from -/

/-- Whether a task is that of a root file, or contents mention it. -/
def Led (layout : Layout) (roots : List Path) (ps : List Contents) (task : LoadTask) : Prop :=
  (∃ root ∈ roots, rootTask layout root = .ok task) ∨ ∃ p ∈ ps, task ∈ p.mentions layout

theorem Led.mono (h : Led layout roots ps task) (hsub : ps ⊆ qs) : Led layout roots qs task := by
  rcases h with hroot | ⟨p, hp, hmem⟩
  · exact .inl hroot
  · exact .inr ⟨p, hsub hp, hmem⟩

/-- Whether a fault is that of a root file outside the project, or of a task. -/
def Blamed (layout : Layout) (w : Workspace) (roots : List Path) (ps : List Contents)
    (fault : Fault) : Prop :=
  (∃ root ∈ roots, rootTask layout root = .error fault) ∨
    ∃ task c, Led layout roots ps task ∧ Catalog.contains c task.key = false ∧
      loadPackage layout w c task = .error fault

/-- What holds when the contents `ps` have been adopted, in this order, of what led to the tasks
    and to the fault. -/
structure Traced (layout : Layout) (w : Workspace) (roots : List Path) (ps : List Contents)
    (s : Progress) : Prop extends Filled layout w roots ps s where
  led : ∀ task ∈ s.queue, Led layout roots ps task
  blamed : ∀ fault, s.fault = some fault → Blamed layout w roots ps fault

theorem traced_start (layout : Layout) (w : Workspace) (roots : List Path) :
    Traced layout w roots [] { roots } where
  toFilled := filled_start layout w roots
  led _ h := absurd h List.not_mem_nil
  blamed _ h := absurd h.symm (Option.some_ne_none _)

/-- Every step preserves where tasks and faults come from. -/
theorem traced_step (h : Traced layout w roots ps s) (hstep : Step layout w s t) :
    ∃ qs, Traced layout w roots qs t := by
  cases hstep with
  | @root file rest task hroots htask =>
      refine ⟨ps, filled_root h.toFilled hroots htask, fun t ht => ?_, h.blamed⟩
      rcases List.mem_append.1 ht with ht | ht
      · exact h.led t ht
      · rw [List.mem_singleton.1 ht]
        exact .inl ⟨file, h.pending file (hroots ▸ List.mem_cons_self ..), htask⟩
  | @refuse file rest fault hroots htask =>
      refine ⟨ps, filled_refuse h.toFilled fault, fun _ ht => absurd ht List.not_mem_nil, ?_⟩
      rintro _ ⟨⟩
      exact .inl ⟨file, h.pending file (hroots ▸ List.mem_cons_self ..), htask⟩
  | @task before after task hqueue =>
      have htask : Led layout roots ps task :=
        h.led task (hqueue ▸ List.mem_append_right _ (List.mem_cons_self ..))
      have hleft : ∀ t ∈ before ++ after, Led layout roots ps t := fun t ht =>
        h.led t (mem_queue_of_take hqueue ht)
      rcases perform_cases layout w { s with queue := before ++ after } task with
        ⟨heq, hknown⟩ | ⟨hnone, hnew, p, tasks, hkey, hfile, hp, hcov, htasks, hok, heq⟩ |
          ⟨-, hnew, fault, -, herr, heq⟩
      · rw [heq]
        exact ⟨ps, filled_skip h.toFilled hqueue fun hnone => h.contains_iff.1 (hknown hnone),
          hleft, h.blamed⟩
      · rw [heq]
        have hnew' := h.notMem_keys hnew
        have hsub : ps ⊆ ps ++ [p] := List.subset_append_left _ _
        refine ⟨ps ++ [p],
          filled_adopt h.toFilled hnone hqueue hkey hfile hp hnew' hcov htasks, fun t ht => ?_,
          fun fault hfault => absurd (hnone.symm.trans hfault) (Option.some_ne_none _).symm⟩
        rcases List.mem_append.1 ht with ht | ht
        · exact (hleft t ht).mono hsub
        · -- the new tasks are among those that the package mentions
          rcases loadPackage_makes layout hnew hkey hfile hp with
            ⟨c', tasks', hok', hmakes⟩ | ⟨fault, herr, -⟩
          · obtain ⟨-, rfl⟩ := Prod.mk.inj (Except.ok.inj (hok.symm.trans hok'))
            exact .inr ⟨p, List.mem_append_right _ (List.mem_singleton_self p), hmakes ht⟩
          · rw [hok] at herr
            cases herr
      · rw [heq]
        refine ⟨ps, filled_skip (filled_fail h.toFilled fault (s.evaluated ++ [task.key])) hqueue
          fun hnone => absurd hnone (Option.some_ne_none _), hleft, ?_⟩
        rintro _ ⟨⟩
        exact .inr ⟨task, s.catalog, htask, hnew, herr⟩

/-- Every run preserves where tasks and faults come from. -/
theorem traced_reachable (h : Reachable layout w roots s) : ∃ ps, Traced layout w roots ps s := by
  induction h with
  | refl => exact ⟨[], traced_start layout w roots⟩
  | tail _ hstep ih =>
      obtain ⟨ps, hps⟩ := ih
      exact traced_step hps hstep

/-! ## The packages that root files lead to -/

/-- The packages that the root files can lead to, whichever of the files that stand for a
    package gives it. -/
inductive MayReach (layout : Layout) (w : Workspace) (roots : List Path) : String → Prop where
  | root {file full : Path} {key : String} (hmem : file ∈ roots)
      (hkey : layout.packageOf file = .ok (key, full)) : MayReach layout w roots key
  | dependency {p : Contents} {target : String} (hreach : MayReach layout w roots p.key)
      (hfile : StandsFor layout roots p.key p.file) (hp : p.Sound w)
      (htarget : target ∈ p.targets) : MayReach layout w roots target

/-- The packages that the root files lead to in any case: whatever files give the packages, they
    refer to them. -/
inductive MustReach (layout : Layout) (w : Workspace) (roots : List Path) : String → Prop where
  | root {file full : Path} {key : String} (hmem : file ∈ roots)
      (hkey : layout.packageOf file = .ok (key, full)) : MustReach layout w roots key
  | dependency {key target : String} (hreach : MustReach layout w roots key)
      (htarget : ∀ p : Contents, p.key = key → StandsFor layout roots p.key p.file → p.Sound w →
        target ∈ p.targets) : MustReach layout w roots target

/-- What is adopted and queued can be reached. -/
theorem Filled.mayReach (h : Filled layout w roots ps s) :
    (∀ p ∈ ps, MayReach layout w roots p.key) ∧
      ∀ task ∈ s.queue, MayReach layout w roots task.key := by
  refine h.least _ ⟨fun file hfile key full hkey => .root hfile hkey, ?_⟩
  exact fun p hp hreach target ht => .dependency hreach (h.files p hp) (h.sound p hp) ht

/-- At the end of a good run what has to be reached is adopted. -/
theorem Filled.mem_keys_of_mustReach (h : Filled layout w roots ps s) (hdone : s.Complete)
    (hnone : s.fault = none) {key : String} (hkey : MustReach layout w roots key) :
    key ∈ ps.map Contents.key := by
  induction hkey with
  | @root file full key hmem hkey =>
      exact h.mem_keys_of_root hdone hnone hmem hkey
  | dependency _ htarget ih =>
      obtain ⟨p, hp, hkey⟩ := List.mem_map.1 ih
      have ht := htarget p hkey (h.files p hp) (h.sound p hp)
      exact (h.targetsCovered hnone p hp _ ht).mem_keys hdone

/-! ## Missing packages -/

/-- Whether the root files exist, and nothing is wrong with what they can lead to except that
    some packages have no file, at least one of which has to be reached. -/
structure OnlyMissing (layout : Layout) (d : Disk) (roots : List Path) : Prop where
  exist : ∀ file ∈ roots, ∃ key full, layout.packageOf file = .ok (key, full) ∧
    d.isFile full = true
  sound : ∀ key file, MayReach layout d.workspace roots key → StandsFor layout roots key file →
    d.isFile file = true → ∃ p : Contents, p.key = key ∧ p.file = file ∧ p.Sound d.workspace
  missing : ∃ key, MustReach layout d.workspace roots key ∧
    ∀ file, StandsFor layout roots key file → d.isFile file = false

/-- Whether a rule `rule` of a package that the root files can lead to refers to the package
    `target` as `raw`. -/
def RefersTo (layout : Layout) (w : Workspace) (roots : List Path) (rule raw target : String) :
    Prop :=
  ∃ p : Contents, MayReach layout w roots p.key ∧ StandsFor layout roots p.key p.file ∧
    p.Sound w ∧ ∃ dcl ∈ p.declarations, dcl.fullName p.key = rule ∧ raw ∈ dcl.deps ∧
      Reference.target? p.key raw = some target

/-- The ends of loading at a dependency on a package without a declaration file. -/
inductive EndsMissing (layout : Layout) (d : Disk) (roots : List Path) :
    Outcome Catalog → Prop where
  /-- The package would be in the builtin tree, and there is none. -/
  | noTree {rule raw target : String}
      (hrefers : RefersTo layout d.workspace roots rule raw target)
      (hfile : layout.fileOf? target = none) :
      EndsMissing layout d roots (.error (noBuiltin rule raw))
  /-- The path of the file comes to nothing, and the dependency is at fault. -/
  | nothing {rule raw target : String} {file : Path}
      (hrefers : RefersTo layout d.workspace roots rule raw target)
      (hfile : layout.fileOf? target = some file) (hnothing : d.ComesToNothing file) :
      EndsMissing layout d roots (.error (.dependencyNotFound rule raw))
  /-- Something else is in the way of the file, and reading it is refused. -/
  | inTheWay {rule raw target : String} {file : Path} {refusal : Refusal}
      (hrefers : RefersTo layout d.workspace roots rule raw target)
      (hfile : layout.fileOf? target = some file) (hmissing : d.isFile file = false)
      (hway : ¬ d.ComesToNothing file) (hread : d.readText file = .error refusal) :
      EndsMissing layout d roots (.error (.io file.text refusal))

/-- A task that contents mention has been made of one of their dependencies. -/
theorem exists_of_mem_mentions (h : task ∈ p.mentions layout) :
    ∃ dcl ∈ p.declarations, ∃ raw ∈ dcl.deps, Reference.target? p.key raw = some task.key ∧
      layout.fileOf? task.key = some task.file ∧
      task.referrer = some ⟨dcl.fullName p.key, raw⟩ := by
  obtain ⟨dcl, hdcl, hmem⟩ := List.mem_flatMap.1 h
  obtain ⟨raw, hraw, hof⟩ := List.mem_filterMap.1 hmem
  obtain ⟨target, htarget, hto⟩ := Option.bind_eq_some_iff.1 hof
  obtain ⟨file, hfile, rfl⟩ := Option.map_eq_some_iff.1 hto
  exact ⟨dcl, hdcl, raw, hraw, htarget, hfile, rfl⟩

/-- A task whose file is missing fails, and if its path comes to nothing the rule that led to the
    task is blamed. -/
theorem loadPackage_of_not_isFile {d : Disk} {rule raw : String} (layout : Layout) (c : Catalog)
    (hfile : d.isFile task.file = false) (hreferrer : task.referrer = some ⟨rule, raw⟩) :
    (d.ComesToNothing task.file ∧ loadPackage layout d.workspace c task =
      .error (.dependencyNotFound rule raw)) ∨
    (¬ d.ComesToNothing task.file ∧ ∃ refusal, d.readText task.file = .error refusal ∧
      loadPackage layout d.workspace c task = .error (.io task.file.text refusal)) := by
  obtain ⟨refusal, hread⟩ := Disk.exists_refusal hfile
  have heval : d.workspace.evaluate task.file =
      .error (.fault (.io task.file.text refusal)) := by
    show d.evaluate task.file = _
    rw [Disk.evaluate, hread]
  have hload : loadPackage layout d.workspace c task =
      .error (blame task.referrer (.io task.file.text refusal)) := by
    rw [loadPackage, heval]
  rw [← Disk.readText_eq_notFound_iff, hload, hread, hreferrer]
  cases refusal with
  | notFound => exact .inl ⟨rfl, rfl⟩
  | _ => exact .inr ⟨by simp, _, rfl, rfl⟩

/-- When only packages are missing, a fault is that of a dependency on one of them. -/
theorem OnlyMissing.endsMissing_of_blamed {d : Disk} {fault : Fault}
    (h : OnlyMissing layout d roots) (hfilled : Filled layout d.workspace roots ps s)
    (hfault : Blamed layout d.workspace roots ps fault) :
    EndsMissing layout d roots (.error fault) := by
  have hinside : ∀ root ∈ roots, ∀ fault, rootTask layout root ≠ .error fault := by
    intro root hroot fault herr
    obtain ⟨key, full, hkey, -⟩ := h.exist root hroot
    rw [rootTask_of_packageOf hkey] at herr
    cases herr
  rcases hfault with ⟨root, hroot, herr⟩ | ⟨task, c, hled, hnew, herr⟩
  · exact absurd herr (hinside root hroot fault)
  -- a task is that of a root file, which exists, or of a dependency
  have hreach : MayReach layout d.workspace roots task.key ∧
      StandsFor layout roots task.key task.file := by
    rcases hled with ⟨root, hroot, hof⟩ | ⟨p, hp, hmem⟩
    · have hpackage := rootTask_eq_ok hof
      exact ⟨.root hroot hpackage, .inl ⟨root, hroot, hpackage⟩⟩
    · obtain ⟨dcl, hdcl, raw, hraw, htarget, hfile, -⟩ := exists_of_mem_mentions hmem
      refine ⟨.dependency (hfilled.mayReach.1 p hp) (hfilled.files p hp) (hfilled.sound p hp) ?_,
        .inr hfile⟩
      exact List.mem_flatMap.2 ⟨dcl, hdcl, List.mem_filterMap.2 ⟨raw, hraw, htarget⟩⟩
  cases hfile : d.isFile task.file with
  | true =>
      obtain ⟨p, hkey, hpfile, hp⟩ := h.sound task.key task.file hreach.1 hreach.2 hfile
      rcases loadPackage_makes layout hnew hkey hpfile hp with
        ⟨c', tasks, hok, -⟩ | ⟨fault', herr', dcl, hdcl, raw, hraw, target, htarget, hnone, rfl⟩
      · rw [hok] at herr
        cases herr
      · obtain rfl := Except.error.inj (herr.symm.trans herr')
        refine .noTree ⟨p, ?_, ?_, hp, dcl, hdcl, rfl, hraw, htarget⟩ hnone
        · exact hkey ▸ hreach.1
        · exact hkey ▸ hpfile ▸ hreach.2
  | false =>
      rcases hled with ⟨root, hroot, hof⟩ | ⟨p, hp, hmem⟩
      · obtain ⟨key, full, hpackage, hfull⟩ := h.exist root hroot
        obtain ⟨-, rfl⟩ := Prod.mk.inj (Except.ok.inj (hpackage.symm.trans (rootTask_eq_ok hof)))
        rw [hfile] at hfull
        cases hfull
      · obtain ⟨dcl, hdcl, raw, hraw, htarget, hof, hreferrer⟩ := exists_of_mem_mentions hmem
        have hrefers : RefersTo layout d.workspace roots (dcl.fullName p.key) raw task.key :=
          ⟨p, hfilled.mayReach.1 p hp, hfilled.files p hp, hfilled.sound p hp, dcl, hdcl, rfl,
            hraw, htarget⟩
        rcases loadPackage_of_not_isFile layout c hfile hreferrer with
          ⟨hnothing, herr'⟩ | ⟨hway, refusal, hread, herr'⟩
        · obtain rfl := Except.error.inj (herr.symm.trans herr')
          exact .nothing hrefers hof hnothing
        · obtain rfl := Except.error.inj (herr.symm.trans herr')
          exact .inTheWay hrefers hof hfile hway hread

/-- When only packages are missing, every complete run ends at a dependency on one of them. -/
theorem OnlyMissing.endsMissing {d : Disk} (h : OnlyMissing layout d roots)
    (hs : Reachable layout d.workspace roots s) (hdone : s.Complete) :
    EndsMissing layout d roots s.outcome := by
  obtain ⟨ps, hps⟩ := traced_reachable hs
  rw [Progress.outcome]
  cases hfault : s.fault with
  | some fault => exact h.endsMissing_of_blamed hps.toFilled (hps.blamed fault hfault)
  | none =>
      -- the package that has to be reached would have been adopted from a file
      obtain ⟨key, hkey, hmissing⟩ := h.missing
      obtain ⟨p, hp, rfl⟩ := List.mem_map.1 (hps.mem_keys_of_mustReach hdone hfault hkey)
      obtain ⟨calls, hcalls, -⟩ := (hps.sound p hp).calls
      have hfile := Disk.isFile_of_evaluate hcalls
      rw [hmissing p.file (hps.files p hp)] at hfile
      cases hfile

/-- When the root files exist and nothing is wrong except that packages are missing, loading
    ends at a dependency on a missing package, in whatever order the tasks are taken.  The
    dependency is at fault if the path of the declaration file comes to nothing; if something
    else is in the way of the file, loading ends with the refusal to read it. -/
theorem missing_package_ends_loading (layout : Layout) (d : Disk) (roots : List Path)
    (h : OnlyMissing layout d roots) :
    (∀ s, Reachable layout d.workspace roots s → s.Complete →
      EndsMissing layout d roots s.outcome) ∧
    ('/' ∉ layout.buildFile.toList →
      EndsMissing layout d roots (load layout d.workspace roots)) := by
  refine ⟨fun s hs hdone => h.endsMissing hs hdone, fun hslash => ?_⟩
  have htask : ∀ file ∈ roots, ∃ task, rootTask layout file = .ok task := by
    intro file hfile
    obtain ⟨key, full, hkey, -⟩ := h.exist file hfile
    exact ⟨{ key, file := full }, by rw [rootTask, hkey]; rfl⟩
  obtain ⟨tasks, htasks⟩ := exists_mapM_eq_ok htask
  obtain ⟨s, hs, hdone, hload⟩ := exists_turns_load (d := d) htasks hslash
  rw [← hload]
  exact h.endsMissing (reachable_of_turns htasks hs) hdone

/-- Where root files are declaration files, nothing else stands for a package. -/
theorem StandsFor.fileOf?_eq {layout : Layout} {roots : List Path} {key : String} {file : Path}
    (h : StandsFor layout roots key file) (hown : OwnFiles layout roots) :
    layout.fileOf? key = some file := by
  rcases h with ⟨root, hroot, hpackage⟩ | hfile
  · obtain ⟨key', full, hpackage', hfull⟩ := hown root hroot
    obtain ⟨rfl, rfl⟩ := Prod.mk.inj (Except.ok.inj (hpackage.symm.trans hpackage'))
    exact hfull
  · exact hfile

/-- The top package refers to the package `lib`, and where its directory would be is a file. -/
def fileInTheWay : Disk where
  tree := ⟨[(["proj"], .directory),
    (["proj", "BUILD"], .file
      "- cc_library: \x7bname: app, deps: [\"//lib:base\"]\x7d\n".toUTF8),
    (["proj", "lib"], .file "".toUTF8)]⟩
  current := ["proj"]

namespace FileInTheWay

variable {p : Contents} {file : Path} {key target rule raw : String}

theorem sound_top : Contents.Sound fileInTheWay.workspace
    ⟨"", ⟨"/proj/BUILD"⟩, [library "app" ["//lib:base"]]⟩ where
  calls := by
    refine ⟨[libraryCall "app" ["//lib:base"]], ?_, rfl⟩
    have hplace : fileInTheWay.locate ⟨"/proj/BUILD"⟩ = .ok ["proj", "BUILD"] :=
      Disk.locate_eq_ok_iff.2 (by decide +kernel)
    exact Disk.evaluate_of_find? hplace rfl (by decide +kernel) (by decide +kernel)
  parses := top_loads.parses
  names := List.nodup_singleton _

theorem file_top (h : StandsFor plainLayout [⟨"BUILD"⟩] "" file) : file = ⟨"/proj/BUILD"⟩ :=
  (Option.some.inj (h.fileOf?_eq ownFiles_top)).symm

theorem file_lib (h : StandsFor plainLayout [⟨"BUILD"⟩] "lib" file) :
    file = ⟨"/proj/lib/BUILD"⟩ :=
  (Option.some.inj (h.fileOf?_eq ownFiles_top)).symm

theorem locate_lib : fileInTheWay.locate ⟨"/proj/lib/BUILD"⟩ = .error .notADirectory := by
  rw [Disk.locate_eq_walk (by decide) (by decide +kernel) (by decide +kernel)]
  decide +kernel

theorem not_isFile_lib : fileInTheWay.isFile ⟨"/proj/lib/BUILD"⟩ = false := by
  rw [Disk.isFile, Disk.entry, locate_lib]
  rfl

/-- What the contents of the two packages refer to. -/
theorem target_eq_lib (hkey : p.key = "" ∨ p.key = "lib")
    (hfile : StandsFor plainLayout [⟨"BUILD"⟩] p.key p.file) (hp : p.Sound fileInTheWay.workspace)
    (ht : target ∈ p.targets) : target = "lib" := by
  rcases hkey with hkey | hkey
  · obtain rfl := hp.unique sound_top hkey (file_top (hkey ▸ hfile))
    exact List.mem_singleton.1 ht
  · obtain ⟨calls, hcalls, -⟩ := hp.calls
    have hlib := Disk.isFile_of_evaluate hcalls
    have hlibFile : p.file = ⟨"/proj/lib/BUILD"⟩ := file_lib (hkey ▸ hfile)
    rw [hlibFile, not_isFile_lib] at hlib
    cases hlib

theorem key_of_mayReach (h : MayReach plainLayout fileInTheWay.workspace [⟨"BUILD"⟩] key) :
    key = "" ∨ key = "lib" := by
  induction h with
  | root hmem hkey =>
      rw [List.mem_singleton.1 hmem] at hkey
      cases hkey
      exact .inl rfl
  | dependency _ hfile hp htarget ih => exact .inr (target_eq_lib ih hfile hp htarget)

theorem target_of_refersTo
    (h : RefersTo plainLayout fileInTheWay.workspace [⟨"BUILD"⟩] rule raw target) :
    target = "lib" := by
  obtain ⟨p, hreach, hfile, hp, dcl, hdcl, -, hraw, htarget⟩ := h
  refine target_eq_lib (key_of_mayReach hreach) hfile hp ?_
  exact List.mem_flatMap.2 ⟨dcl, hdcl, List.mem_filterMap.2 ⟨raw, hraw, htarget⟩⟩

/-- Only the package `lib` is missing. -/
theorem onlyMissing : OnlyMissing plainLayout fileInTheWay [⟨"BUILD"⟩] where
  exist := by
    intro root hroot
    obtain ⟨calls, hcalls, -⟩ := sound_top.calls
    rw [List.mem_singleton.1 hroot]
    exact ⟨"", ⟨"/proj/BUILD"⟩, rfl, Disk.isFile_of_evaluate hcalls⟩
  sound := by
    intro key file hreach hfile hexists
    rcases key_of_mayReach hreach with rfl | rfl
    · rw [file_top hfile]
      exact ⟨_, rfl, rfl, sound_top⟩
    · rw [file_lib hfile, not_isFile_lib] at hexists
      cases hexists
  missing := by
    have hkey : plainLayout.packageOf ⟨"BUILD"⟩ = .ok ("", ⟨"/proj/BUILD"⟩) := rfl
    have htop : MustReach plainLayout fileInTheWay.workspace [⟨"BUILD"⟩] "" :=
      .root (List.mem_singleton_self _) hkey
    refine ⟨"lib", .dependency htop ?_, fun file hfile => ?_⟩
    · intro p hkey hfile hp
      obtain rfl := hp.unique sound_top hkey (file_top (hkey ▸ hfile))
      exact List.mem_singleton_self _
    · rw [file_lib hfile, not_isFile_lib]

end FileInTheWay

open FileInTheWay in
/-- Loading ends with the refusal to read the file in the way. -/
theorem fileInTheWay_ends_loading : OnlyMissing plainLayout fileInTheWay [⟨"BUILD"⟩] ∧
    load plainLayout fileInTheWay.workspace [⟨"BUILD"⟩] =
      .error (.io "/proj/lib/BUILD" .notADirectory) := by
  refine ⟨onlyMissing, ?_⟩
  have hread : fileInTheWay.readText ⟨"/proj/lib/BUILD"⟩ = .error .notADirectory := by
    rw [Disk.readText, Disk.read, Disk.entry, locate_lib]
    rfl
  have hend := (missing_package_ends_loading _ _ _ onlyMissing).2 (by decide)
  generalize load plainLayout fileInTheWay.workspace [⟨"BUILD"⟩] = out at hend
  cases hend with
  | noTree hrefers hfile =>
      rw [target_of_refersTo hrefers] at hfile
      cases hfile
  | nothing hrefers hfile hnothing =>
      obtain rfl := file_lib (.inr (target_of_refersTo hrefers ▸ hfile))
      rw [← Disk.readText_eq_notFound_iff, hread] at hnothing
      cases hnothing
  | inTheWay hrefers hfile hmissing hway hread' =>
      obtain rfl := file_lib (.inr (target_of_refersTo hrefers ▸ hfile))
      rw [hread] at hread'
      cases hread'
      rfl

end Loading

end Buildwright
