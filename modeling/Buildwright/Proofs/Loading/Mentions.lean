import Buildwright.Proofs.Loading.Task

/-! # What a package mentions

    A package that is loaded makes a task for each package that is new to the catalog, once,
    when it is first referred to.  What it makes is told by its declarations: they mention a
    task for every dependency, whether or not one is made of it.  The tasks that are left out
    are those of packages that are known or that an earlier task is for, so whoever looks for
    the first task of a package that is not known yet finds the same in both lists.

    * `Contents.mentions` — a task for every dependency of a package, in order;
    * `Loading.SameFront` — lists in which the first task of an unknown package is the same;
    * `Loading.sameFront_loadPackage` — the tasks that a package makes and those it mentions. -/

namespace Buildwright

/-- The task for the package `target`, to which the rule `rule` refers as `raw`.  There is none
    for a package without a declaration file. -/
def LoadTask.to? (layout : Layout) (rule raw target : String) : Option LoadTask :=
  (layout.fileOf? target).map fun file =>
    { key := target, file, referrer := some { rule, target := raw } }

/-- The task for a dependency text of the rule `rule` in the package `key`.  There is none for
    a text that is no reference. -/
def LoadTask.of? (layout : Layout) (key rule raw : String) : Option LoadTask :=
  (Reference.target? key raw).bind (LoadTask.to? layout rule raw)

/-- The full name of a declaration as a rule of the package `key`. -/
def Declaration.fullName (key : String) (d : Declaration) : String :=
  Rule.fullName { id := 0, package := key, declaration := d }

/-- The tasks for the dependencies of a declaration in the package `key`. -/
def Declaration.mentions (layout : Layout) (key : String) (d : Declaration) : List LoadTask :=
  d.deps.filterMap (LoadTask.of? layout key (d.fullName key))

/-- The tasks for the dependencies of a package, in order of declaration. -/
def Contents.mentions (layout : Layout) (p : Contents) : List LoadTask :=
  p.declarations.flatMap (Declaration.mentions layout p.key)

namespace Loading

variable {keys : List String} {queue queue' mentions mentions' : List LoadTask} {task : LoadTask}

/-- The first task of a package that is not among the known ones. -/
def firstOutside (known : List String) (tasks : List LoadTask) : Option LoadTask :=
  tasks.find? fun task => task.key ∉ known

theorem firstOutside_append (known : List String) (tasks tasks' : List LoadTask) :
    firstOutside known (tasks ++ tasks') =
      (firstOutside known tasks).or (firstOutside known tasks') :=
  List.find?_append

theorem firstOutside_cons_of_mem {known : List String} (h : task.key ∈ known)
    (tasks : List LoadTask) : firstOutside known (task :: tasks) = firstOutside known tasks :=
  List.find?_cons_of_neg (by simpa using h)

theorem firstOutside_cons_of_notMem {known : List String} (h : task.key ∉ known)
    (tasks : List LoadTask) : firstOutside known (task :: tasks) = some task :=
  List.find?_cons_of_pos (by simpa using h)

/-- A task of an unknown package is found, or one before it. -/
theorem firstOutside_ne_none {known : List String} (htask : task ∈ queue)
    (h : task.key ∉ known) : firstOutside known queue ≠ none := by
  intro hnone
  exact absurd (List.find?_eq_none.1 hnone task htask) (by simpa using h)

/-- Whether the first task of an unknown package is the same in two lists, whatever is known
    besides `keys`. -/
def SameFront (keys : List String) (queue mentions : List LoadTask) : Prop :=
  ∀ known : List String, keys ⊆ known → firstOutside known queue = firstOutside known mentions

namespace SameFront

theorem refl (keys : List String) (tasks : List LoadTask) : SameFront keys tasks tasks :=
  fun _ _ => rfl

theorem mono {keys' : List String} (h : SameFront keys queue mentions) (hkeys : keys ⊆ keys') :
    SameFront keys' queue mentions :=
  fun known hknown => h known (List.Subset.trans hkeys hknown)

theorem append (h : SameFront keys queue mentions) (h' : SameFront keys queue' mentions') :
    SameFront keys (queue ++ queue') (mentions ++ mentions') := by
  intro known hknown
  rw [firstOutside_append, firstOutside_append, h known hknown, h' known hknown]

/-- The task of a known package can be left out. -/
theorem of_cons (h : SameFront keys (task :: queue) mentions) (hkey : task.key ∈ keys) :
    SameFront keys queue mentions := by
  intro known hknown
  rw [← h known hknown, firstOutside_cons_of_mem (hknown hkey)]

/-- One list can go on with the task of a package that is known or has a task. -/
theorem mention (h : SameFront keys queue mentions)
    (hcov : task.key ∈ keys ∨ ∃ t ∈ queue, t.key = task.key) :
    SameFront keys queue (mentions ++ [task]) := by
  intro known hknown
  rw [firstOutside_append, ← h known hknown]
  by_cases hkey : task.key ∈ known
  · rw [firstOutside_cons_of_mem hkey]
    exact (Option.or_none).symm
  · -- the package is not known, so an earlier task of it is found already
    rcases hcov with hmem | ⟨t, ht, hsame⟩
    · exact absurd (hknown hmem) hkey
    · obtain ⟨first, hfirst⟩ :=
        Option.ne_none_iff_exists'.1 (firstOutside_ne_none ht (hsame ▸ hkey))
      rw [hfirst, Option.some_or]

end SameFront

end Loading

/-! ## The tasks that a package makes -/

namespace PackageRun

open Loading (SameFront)

variable {layout : Layout} {c : Catalog} {p : Contents} {visited keys : List String}
  {run run' : PackageRun} {file : Path} {mentions : List LoadTask}

/-- What a dependency makes and what it mentions. -/
theorem sameFront_refer (h : Holds layout c p visited run)
    (hkeys : ∀ key, (c.adopt p .inProgress).contains key = true → key ∈ keys)
    (hsame : SameFront keys run.tasks mentions) {id : RuleId} {raw rule : String}
    (hrule : (run.catalog.rule? id).map Rule.fullName = some rule) {target : String}
    (hok : run.refer layout id raw target = .ok run') :
    SameFront keys run'.tasks (mentions ++ (LoadTask.to? layout rule raw target).toList) := by
  have hcovered : (c.adopt p .inProgress).contains target = true ∨
      (∃ t ∈ run.tasks, t.key = target) →
      SameFront keys run.tasks (mentions ++ (LoadTask.to? layout rule raw target).toList) := by
    intro hcov
    rw [LoadTask.to?]
    cases layout.fileOf? target with
    | none => rwa [Option.map_none, Option.toList_none, List.append_nil]
    | some file => exact hsame.mention (hcov.imp_left (hkeys target))
  have hrefer := refer_cases layout id raw target run
  rw [hok] at hrefer
  cases hrefer with
  | seen hseen => exact hcovered (h.covered target (h.seen target hseen))
  | known _ hknown =>
      rw [h.catalog] at hknown
      exact hcovered (.inl hknown)
  | task _ _ hfile =>
      rw [hrule, LoadTask.to?, hfile]
      exact hsame.append (.refl _ _)

theorem sameFront_follow (h : Holds layout c p visited run)
    (hkeys : ∀ key, (c.adopt p .inProgress).contains key = true → key ∈ keys)
    (hsame : SameFront keys run.tasks mentions) {id : RuleId} {raw rule : String}
    (hrule : (run.catalog.rule? id).map Rule.fullName = some rule)
    (hok : run.follow layout p.key id raw = .ok run') :
    SameFront keys run'.tasks (mentions ++ (LoadTask.of? layout p.key rule raw).toList) := by
  rw [follow] at hok
  rw [LoadTask.of?, Reference.target?]
  cases hparse : Reference.parse raw with
  | error fault =>
      rw [hparse] at hok
      cases hok
  | ok reference =>
      rw [hparse] at hok
      simp only [Option.bind_some]
      by_cases hself : reference.position = .this ∨ reference.resolve p.key = p.key
      · -- the declaring package is known, and no task is made of it
        have hok' : run = run' := by
          simpa only [bind, Except.bind, if_pos hself, pure, Except.pure, Except.ok.injEq] using hok
        subst hok'
        rw [LoadTask.to?]
        cases layout.fileOf? (reference.resolve p.key) with
        | none => rwa [Option.map_none, Option.toList_none, List.append_nil]
        | some file =>
            refine hsame.mention (.inl (hkeys _ ?_))
            rw [PackageRun.resolve_eq_of_own hself]
            exact Catalog.contains_adopt.2 (.inl rfl)
      · have hok' : run.refer layout id raw (reference.resolve p.key) = .ok run' := by
          simpa only [bind, Except.bind, if_neg hself] using hok
        exact sameFront_refer h hkeys hsame hrule hok'

/-- What the dependencies of a rule make and what they mention. -/
theorem sameFront_foldlM_follow {id : RuleId} {rule : String} (deps : List String)
    (h : Holds layout c p visited run)
    (hkeys : ∀ key, (c.adopt p .inProgress).contains key = true → key ∈ keys)
    (hsame : SameFront keys run.tasks mentions)
    (hrule : ((c.adopt p .inProgress).rule? id).map Rule.fullName = some rule)
    (hok : deps.foldlM (fun run raw => run.follow layout p.key id raw) run = .ok run') :
    SameFront keys run'.tasks (mentions ++ deps.filterMap (LoadTask.of? layout p.key rule)) := by
  induction deps generalizing run visited mentions with
  | nil =>
      cases hok
      rwa [List.filterMap_nil, List.append_nil]
  | cons raw rest ih =>
      rw [List.foldlM_cons] at hok
      rcases follow_spec h id raw with ⟨target, run₁, -, hok₁, h₁⟩ | ⟨fault, herr, -⟩
      · rw [hok₁] at hok
        have hsame₁ := sameFront_follow h hkeys hsame (by rwa [h.catalog]) hok₁
        have hrest := ih h₁ hsame₁ hok
        rw [List.filterMap_cons]
        cases hof : LoadTask.of? layout p.key rule raw with
        | none => rwa [hof, Option.toList_none, List.append_nil] at hrest
        | some task => rwa [hof, Option.toList_some, List.append_assoc] at hrest
      · rw [herr] at hok
        cases hok

/-- The rule that was added last is found under its number. -/
theorem rule?_declare (c : Catalog) (p : Contents) (d : Declaration) (state : LoadState) :
    ((c.adopt (p.declare d) state).rule? (c.rules.length + p.declarations.length)).map
      Rule.fullName = some (d.fullName p.key) := by
  have hlen : (c.rules ++ p.rulesFrom c.rules.length).length =
      c.rules.length + p.declarations.length := by simp
  rw [Catalog.rule?, Catalog.adopt]
  simp only [Contents.rulesFrom_declare, ← List.append_assoc, ← hlen, List.getElem?_concat_length]
  rfl

/-- What the calls of a file make and what their declarations mention. -/
theorem sameFront_foldlM_addCall (calls : List Call) (hc : c.contains p.key = false)
    (h : Holds layout c p visited run)
    (hkeys : ∀ key, (c.adopt p .inProgress).contains key = true → key ∈ keys)
    (hsame : SameFront keys run.tasks mentions)
    (hok : calls.foldlM (addCall layout p.key file) run = .ok run') {ds : List Declaration}
    (hds : calls.mapM (fun call => Declaration.ofCall call file) = .ok ds) :
    SameFront keys run'.tasks (mentions ++ ds.flatMap (Declaration.mentions layout p.key)) := by
  induction calls generalizing p visited run mentions ds with
  | nil =>
      obtain rfl : [] = ds := Except.ok.inj hds
      cases hok
      rwa [List.flatMap_nil, List.append_nil]
  | cons call rest ih =>
      obtain ⟨d, ds, hd, hrest, rfl⟩ := mapM_cons_eq_ok_iff.1 hds
      rw [List.foldlM_cons] at hok
      rcases @addCall_spec layout c p visited run file hc h call with
        ⟨d', run₁, hd', hname, -, hok₁, h₁⟩ | ⟨fault, herr, -⟩
      · obtain rfl := Except.ok.inj (hd.symm.trans hd')
        rw [hok₁] at hok
        have hkeys₁ : ∀ key, (c.adopt (p.declare d) .inProgress).contains key = true →
            key ∈ keys := by
          intro key hkey
          rw [Catalog.contains_adopt] at hkey
          exact hkeys key (Catalog.contains_adopt.2 hkey)
        -- the rule is added, and then its dependencies are followed
        have hfollow : d.deps.foldlM (fun run raw => run.follow layout p.key
            (c.rules.length + p.declarations.length) raw)
            { run with catalog := c.adopt (p.declare d) .inProgress } = .ok run₁ := by
          rw [addCall, hd, h.catalog] at hok₁
          simpa only [bind, Except.bind, Catalog.addRule_adopt hc, if_neg hname] using hok₁
        have hsame₁ := sameFront_foldlM_follow d.deps (h.declare d) hkeys₁ hsame
          (rule?_declare c p d .inProgress) hfollow
        rw [List.flatMap_cons, ← List.append_assoc]
        exact ih (p := p.declare d) hc h₁ hkeys₁ hsame₁ hok hrest
      · rw [herr] at hok
        cases hok

end PackageRun

namespace Loading

variable {layout : Layout} {w : Workspace} {c c' : Catalog} {p : Contents} {task : LoadTask}
  {tasks : List LoadTask} {keys : List String}

/-- Whoever looks for a package that is not known finds the same in the tasks that a package
    makes and in those that it mentions. -/
theorem sameFront_loadPackage (hc : c.contains task.key = false) (hkey : p.key = task.key)
    (hfile : p.file = task.file) (hp : p.Sound w)
    (hkeys : ∀ key, (c.adopt p).contains key = true → key ∈ keys)
    (hok : loadPackage layout w c task = .ok (c', tasks)) :
    SameFront keys tasks (p.mentions layout) := by
  obtain ⟨calls, hcalls, hds⟩ := hp.calls
  have hstart : PackageRun.Holds layout c ⟨task.key, task.file, []⟩ []
      { catalog := c.begin task.key task.file } :=
    ⟨Catalog.begin_eq_adopt task.file hc, fun _ ht => absurd ht List.not_mem_nil,
      fun _ ht => absurd ht List.not_mem_nil, fun _ ht => absurd ht List.not_mem_nil⟩
  have hkeys' : ∀ key, (c.adopt ⟨task.key, task.file, []⟩ .inProgress).contains key = true →
      key ∈ keys := by
    intro key hmem
    rw [Catalog.contains_adopt] at hmem
    exact hkeys key (Catalog.contains_adopt.2 (hmem.imp_left hkey.trans))
  rw [hfile] at hcalls hds
  rw [loadPackage, hcalls] at hok
  cases hrun : calls.foldlM (PackageRun.addCall layout task.key task.file)
      { catalog := c.begin task.key task.file } with
  | error fault =>
      simp only [hrun] at hok
      cases hok
  | ok run =>
      simp only [hrun] at hok
      cases hok
      have hsame : SameFront keys run.tasks
          ([] ++ p.declarations.flatMap (Declaration.mentions layout task.key)) :=
        PackageRun.sameFront_foldlM_addCall calls hc hstart hkeys' (.refl _ _) hrun hds
      rwa [List.nil_append, ← hkey] at hsame

end Loading

end Buildwright
