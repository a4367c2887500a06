import Buildwright.Loading
import Buildwright.Proofs.Outcome
import Buildwright.Proofs.Package.Contents
import Mathlib.Data.List.Nodup

/-! # What a task adds

    A task evaluates one declaration file, checks its calls, and follows their
    dependencies.  Either the package is adopted with all its declarations and
    every package they refer to is known or becomes a task, or some part of the
    file is at fault.

    * `Contents.Sound` — when the file of some contents is free of faults;
    * `Contents.Loads` — when that file is the declaration file of the package;
    * `PackageRun.Referral`, `PackageRun.refer_cases` — the ways to refer to a package;
    * `Loading.loadPackage_spec` — the two ways a task can end. -/

namespace Buildwright

/-! ## Declarations and what they refer to -/

/-- The package that a dependency text leads to when it is written in the package
    `key`. -/
def Reference.target? (key raw : String) : Option String :=
  match parse raw with
  | .ok reference => some (reference.resolve key)
  | .error _ => none

/-- The packages that the dependencies of a declaration in the package `key` lead
    to. -/
def Declaration.targets (key : String) (d : Declaration) : List String :=
  d.deps.filterMap (Reference.target? key)

theorem Reference.exists_target?_iff {key raw : String} :
    (∃ target, target? key raw = some target) ↔ ∃ reference, parse raw = .ok reference := by
  rw [target?]
  cases parse raw with
  | error fault => simp
  | ok reference => simp

/-- Whether every dependency of a declaration is a reference. -/
def Declaration.Parses (d : Declaration) : Prop :=
  ∀ raw ∈ d.deps, ∃ reference, Reference.parse raw = .ok reference

namespace Contents

/-- Whether the contents are what the declaration file of the package declares:
    the file can be evaluated, and each of its calls is a declaration. -/
structure Declared (layout : Layout) (w : Workspace) (p : Contents) : Prop where
  file : layout.fileOf? p.key = some p.file
  calls : ∃ calls, w.evaluate p.file = .ok calls ∧
    calls.mapM (fun call => Declaration.ofCall call p.file) = .ok p.declarations

/-- Whether every dependency of the package is a reference. -/
def Parses (p : Contents) : Prop :=
  ∀ d ∈ p.declarations, d.Parses

/-- The packages that the dependencies of the package lead to. -/
def targets (p : Contents) : List String :=
  p.declarations.flatMap (Declaration.targets p.key)

/-- Whether the contents are what their file declares without a fault, be it the declaration
    file of the package or not. -/
structure Sound (w : Workspace) (p : Contents) : Prop where
  calls : ∃ calls, w.evaluate p.file = .ok calls ∧
    calls.mapM (fun call => Declaration.ofCall call p.file) = .ok p.declarations
  parses : p.Parses
  names : p.names.Nodup

/-- Whether the contents are declared without a fault: the dependencies are
    references, and no name is declared twice. -/
structure Loads (layout : Layout) (w : Workspace) (p : Contents) : Prop where
  declared : p.Declared layout w
  parses : p.Parses
  names : p.names.Nodup

theorem Loads.sound {layout : Layout} {w : Workspace} {p : Contents} (h : p.Loads layout w) :
    p.Sound w :=
  ⟨h.declared.calls, h.parses, h.names⟩

/-- Contents without a fault are those of the package, if the file is. -/
theorem Sound.loads {layout : Layout} {w : Workspace} {p : Contents} (h : p.Sound w)
    (hfile : layout.fileOf? p.key = some p.file) : p.Loads layout w :=
  ⟨⟨hfile, h.calls⟩, h.parses, h.names⟩

/-- One file gives a package one content. -/
theorem eq_of_calls {w : Workspace} {p q : Contents} (hkey : p.key = q.key) (hfile : p.file = q.file)
    (hp : ∃ calls, w.evaluate p.file = .ok calls ∧
      calls.mapM (fun call => Declaration.ofCall call p.file) = .ok p.declarations)
    (hq : ∃ calls, w.evaluate q.file = .ok calls ∧
      calls.mapM (fun call => Declaration.ofCall call q.file) = .ok q.declarations) : p = q := by
  obtain ⟨key, file, declarations⟩ := p
  obtain ⟨key', file', declarations'⟩ := q
  obtain rfl : key = key' := hkey
  obtain rfl : file = file' := hfile
  obtain ⟨calls, hcalls, hd⟩ := hp
  obtain ⟨calls', hcalls', hd'⟩ := hq
  obtain rfl : calls = calls' := Except.ok.inj (hcalls.symm.trans hcalls')
  obtain rfl : declarations = declarations' := Except.ok.inj (hd.symm.trans hd')
  rfl

theorem Sound.unique {w : Workspace} {p q : Contents} (hp : p.Sound w) (hq : q.Sound w)
    (hkey : p.key = q.key) (hfile : p.file = q.file) : p = q :=
  eq_of_calls hkey hfile hp.calls hq.calls

/-- A package has one declaration file with one content. -/
theorem Declared.unique {layout : Layout} {w : Workspace} {p q : Contents}
    (hp : p.Declared layout w) (hq : q.Declared layout w) (h : p.key = q.key) : p = q := by
  have hfile : p.file = q.file := by
    refine Option.some.inj ?_
    rw [← hp.file, ← hq.file, h]
  exact eq_of_calls h hfile hp.calls hq.calls

end Contents

/-! ## Following the dependencies of a declaration -/

namespace PackageRun

variable {layout : Layout} {c : Catalog} {p : Contents} {visited : List String}
  {run : PackageRun} {file : Path}

/-- Whether a run has added the contents `p` to the catalog `c` and referred to the
    packages `visited`: each of them is known or a task. -/
structure Holds (layout : Layout) (c : Catalog) (p : Contents) (visited : List String)
    (run : PackageRun) : Prop where
  catalog : run.catalog = c.adopt p .inProgress
  covered : ∀ target ∈ visited,
    (c.adopt p .inProgress).contains target = true ∨ ∃ task ∈ run.tasks, task.key = target
  seen : ∀ target ∈ run.seen, target ∈ visited
  tasks : ∀ task ∈ run.tasks, task.key ∈ visited ∧ layout.fileOf? task.key = some task.file

/-- The packages that were referred to may be more, if those are covered. -/
theorem Holds.visit (h : Holds layout c p visited run) {target : String}
    (ht : (c.adopt p .inProgress).contains target = true ∨ ∃ task ∈ run.tasks, task.key = target) :
    Holds layout c p (visited ++ [target]) run where
  catalog := h.catalog
  covered := by
    intro t hmem
    rcases List.mem_append.1 hmem with hmem | hmem
    · exact h.covered t hmem
    · rw [List.mem_singleton.1 hmem]
      exact ht
  seen t hmem := List.mem_append_left _ (h.seen t hmem)
  tasks task hmem :=
    ⟨List.mem_append_left _ (h.tasks task hmem).1, (h.tasks task hmem).2⟩

/-- The ways in which a run can refer to a package. -/
inductive Referral (layout : Layout) (id : RuleId) (raw target : String) (run : PackageRun) :
    Outcome PackageRun → Prop where
  /-- The run has referred to it before. -/
  | seen (hseen : target ∈ run.seen) : Referral layout id raw target run (.ok run)
  /-- It is in the catalog. -/
  | known (hseen : target ∉ run.seen) (hknown : run.catalog.contains target = true) :
      Referral layout id raw target run (.ok { run with seen := target :: run.seen })
  /-- It is new, and there is no file for it. -/
  | lost (hseen : target ∉ run.seen) (hnew : run.catalog.contains target = false)
      (hfile : layout.fileOf? target = none) :
      Referral layout id raw target run (.error (.dependencyNotFound
        (((run.catalog.rule? id).map Rule.fullName).getD "")
        (raw ++ " (no builtin root is configured)")))
  /-- It is new, and its file becomes a task. -/
  | task (hseen : target ∉ run.seen) (hnew : run.catalog.contains target = false) {file : Path}
      (hfile : layout.fileOf? target = some file) :
      Referral layout id raw target run (.ok { run with
        seen := target :: run.seen
        tasks := run.tasks ++ [{
          key := target
          file
          referrer := some {
            rule := ((run.catalog.rule? id).map Rule.fullName).getD ""
            target := raw } }] })

theorem refer_cases (layout : Layout) (id : RuleId) (raw target : String) (run : PackageRun) :
    Referral layout id raw target run (run.refer layout id raw target) := by
  rw [refer]
  by_cases hseen : target ∈ run.seen
  · rw [if_pos hseen]
    exact .seen hseen
  rw [if_neg hseen]
  by_cases hknown : run.catalog.contains target = true
  · rw [if_pos hknown]
    exact .known hseen hknown
  rw [if_neg hknown]
  rw [Bool.not_eq_true] at hknown
  cases hfile : layout.fileOf? target with
  | none => exact .lost hseen hknown hfile
  | some file => exact .task hseen hknown hfile

/-- Referring to a package covers it, or it has no declaration file. -/
theorem refer_spec (h : Holds layout c p visited run) (id : RuleId) (raw target : String) :
    (∃ run', run.refer layout id raw target = .ok run' ∧
      Holds layout c p (visited ++ [target]) run') ∨
    (∃ fault, run.refer layout id raw target = .error fault ∧ layout.fileOf? target = none) := by
  have hseen' : ∀ t ∈ target :: run.seen, t ∈ visited ++ [target] := by
    intro t ht
    rcases List.mem_cons.1 ht with rfl | ht
    · exact List.mem_append_right _ (List.mem_singleton_self t)
    · exact List.mem_append_left _ (h.seen t ht)
  have hrefer := refer_cases layout id raw target run
  generalize run.refer layout id raw target = out at hrefer
  cases hrefer with
  | seen hseen => exact .inl ⟨run, rfl, h.visit (h.covered target (h.seen target hseen))⟩
  | known _ hknown =>
      rw [h.catalog] at hknown
      exact .inl ⟨_, rfl, { h.visit (.inl hknown) with seen := hseen' }⟩
  | lost _ _ hfile => exact .inr ⟨_, rfl, hfile⟩
  | task _ _ hfile =>
      refine .inl ⟨_, rfl, h.catalog, fun t ht => ?_, hseen', fun task htask => ?_⟩
      · rcases List.mem_append.1 ht with ht | ht
        · rcases h.covered t ht with hc | ⟨task, htask, hkey⟩
          · exact .inl hc
          · exact .inr ⟨task, List.mem_append_left _ htask, hkey⟩
        · rw [List.mem_singleton.1 ht]
          exact .inr ⟨_, List.mem_append_right _ (List.mem_singleton_self _), rfl⟩
      · rcases List.mem_append.1 htask with htask | htask
        · exact ⟨List.mem_append_left _ (h.tasks task htask).1, (h.tasks task htask).2⟩
        · rw [List.mem_singleton.1 htask]
          exact ⟨List.mem_append_right _ (List.mem_singleton_self _), hfile⟩

/-- A reference that is not followed is to the declaring package. -/
theorem resolve_eq_of_own {reference : Reference} {key : String}
    (h : reference.position = .this ∨ reference.resolve key = key) :
    reference.resolve key = key := by
  rcases h with hthis | hkey
  · rw [Reference.resolve, hthis]
  · exact hkey

/-- A reference to the declaring package is not followed. -/
theorem follow_of_parse {id : RuleId} {key raw : String} {reference : Reference}
    (h : Reference.parse raw = .ok reference) : run.follow layout key id raw =
      if reference.position = .this ∨ reference.resolve key = key then .ok run
      else run.refer layout id raw (reference.resolve key) := by
  rw [follow, h]
  rfl

/-- Following a dependency covers its package, or the dependency is at fault: it is no
    reference, or its package has no declaration file. -/
theorem follow_spec (h : Holds layout c p visited run) (id : RuleId) (raw : String) :
    (∃ target run', Reference.target? p.key raw = some target ∧
      run.follow layout p.key id raw = .ok run' ∧
      Holds layout c p (visited ++ [target]) run') ∨
    (∃ fault, run.follow layout p.key id raw = .error fault ∧
      ∀ target, Reference.target? p.key raw = some target → layout.fileOf? target = none) := by
  rw [Reference.target?]
  cases hparse : Reference.parse raw with
  | error fault =>
      refine .inr ⟨fault, ?_, fun _ ht => by cases ht⟩
      rw [follow, hparse]
      rfl
  | ok reference =>
      rw [follow_of_parse hparse]
      by_cases hself : reference.position = .this ∨ reference.resolve p.key = p.key
      · -- the declaring package is in the catalog already, and becomes no task
        rw [if_pos hself]
        have hknown : (c.adopt p .inProgress).contains (reference.resolve p.key) = true := by
          rw [resolve_eq_of_own hself]
          exact Catalog.contains_adopt.2 (.inl rfl)
        exact .inl ⟨_, run, rfl, rfl, h.visit (.inl hknown)⟩
      · rw [if_neg hself]
        rcases refer_spec h id raw (reference.resolve p.key) with ⟨run', hok, hrun'⟩ | hfault
        · exact .inl ⟨_, run', rfl, hok, hrun'⟩
        · obtain ⟨fault, herr, hnone⟩ := hfault
          refine .inr ⟨fault, herr, fun target ht => ?_⟩
          rw [← Option.some.inj ht]
          exact hnone

/-- Following dependencies covers the packages of all of them, or one is at fault. -/
theorem foldlM_follow_spec (id : RuleId) (deps : List String)
    (h : Holds layout c p visited run) :
    (∃ run', deps.foldlM (fun run raw => run.follow layout p.key id raw) run = .ok run' ∧
      (∀ raw ∈ deps, ∃ target, Reference.target? p.key raw = some target) ∧
      Holds layout c p (visited ++ deps.filterMap (Reference.target? p.key)) run') ∨
    (∃ fault, deps.foldlM (fun run raw => run.follow layout p.key id raw) run = .error fault ∧
      ∃ raw ∈ deps, ∀ target, Reference.target? p.key raw = some target →
        layout.fileOf? target = none) := by
  induction deps generalizing run visited with
  | nil =>
      refine .inl ⟨run, rfl, fun _ hr => absurd hr List.not_mem_nil, ?_⟩
      rw [List.filterMap_nil, List.append_nil]
      exact h
  | cons raw rest ih =>
      rw [List.foldlM_cons]
      rcases follow_spec h id raw with ⟨target, run₁, ht, hok, h₁⟩ | ⟨fault, herr, hnone⟩
      · rw [hok]
        rcases ih h₁ with ⟨run₂, hok₂, hparse, h₂⟩ | ⟨fault, herr, raw', hraw', hnone⟩
        · refine .inl ⟨run₂, hok₂, fun raw' hraw' => ?_, ?_⟩
          · rcases List.mem_cons.1 hraw' with rfl | hraw'
            · exact ⟨target, ht⟩
            · exact hparse raw' hraw'
          · rw [List.filterMap_cons_some ht, List.append_cons]
            exact h₂
        · exact .inr ⟨fault, herr, raw', List.mem_cons_of_mem _ hraw', hnone⟩
      · rw [herr]
        exact .inr ⟨fault, rfl, raw, List.mem_cons_self .., hnone⟩

/-- Adding a rule changes the contents by its declaration. -/
theorem Holds.declare (h : Holds layout c p visited run) (d : Declaration) :
    Holds layout c (p.declare d) visited
      { run with catalog := c.adopt (p.declare d) .inProgress } where
  catalog := rfl
  covered := by
    intro target ht
    rw [Catalog.contains_adopt]
    have hcov := h.covered target ht
    rwa [Catalog.contains_adopt] at hcov
  seen := h.seen
  tasks := h.tasks

/-- Adding the rule of a call declares it and covers its dependencies, or the call is at
    fault. -/
theorem addCall_spec (hc : c.contains p.key = false) (h : Holds layout c p visited run)
    (call : Call) :
    (∃ d run', Declaration.ofCall call file = .ok d ∧ d.name ∉ p.names ∧ d.Parses ∧
      run.addCall layout p.key file call = .ok run' ∧
      Holds layout c (p.declare d) (visited ++ d.targets p.key) run') ∨
    (∃ fault, run.addCall layout p.key file call = .error fault ∧
      ∀ d, Declaration.ofCall call file = .ok d → d.name ∉ p.names →
        ∃ raw ∈ d.deps, ∀ target, Reference.target? p.key raw = some target →
          layout.fileOf? target = none) := by
  cases hd : Declaration.ofCall call file with
  | error fault =>
      refine .inr ⟨fault, ?_, fun _ hd' => by cases hd'⟩
      rw [addCall, hd]
      rfl
  | ok d =>
      have hunfold : run.addCall layout p.key file call =
          (c.adopt p .inProgress).addRule p.key d >>= fun added =>
            d.deps.foldlM (fun run raw => run.follow layout p.key added.1 raw)
              { run with catalog := added.2 } := by
        rw [addCall, hd, ← h.catalog]
        rfl
      rw [hunfold, Catalog.addRule_adopt hc]
      by_cases hname : d.name ∈ p.names
      · -- declared before: the call is at fault, whatever it depends on
        rw [if_pos hname]
        refine .inr ⟨_, rfl, fun d' hd' hn => ?_⟩
        rw [Except.ok.inj hd'] at hname
        exact absurd hname hn
      · rw [if_neg hname]
        rcases foldlM_follow_spec (c.rules.length + p.declarations.length) d.deps
          (h.declare d) with ⟨run', hok, hparse, h'⟩ | ⟨fault, herr, hraw⟩
        · refine .inl ⟨d, run', rfl, hname, fun raw hraw => ?_, hok, h'⟩
          exact Reference.exists_target?_iff.1 (hparse raw hraw)
        · refine .inr ⟨fault, herr, fun d' hd' _ => ?_⟩
          rw [← Except.ok.inj hd']
          exact hraw

/-- Adding the rules of all calls declares them and covers their dependencies, or one of
    the calls is at fault. -/
theorem foldlM_addCall_spec (file : Path) (calls : List Call) (hc : c.contains p.key = false)
    (h : Holds layout c p visited run) (hnames : p.names.Nodup) :
    (∃ ds run', calls.mapM (fun call => Declaration.ofCall call file) = .ok ds ∧
      (∀ d ∈ ds, d.Parses) ∧ (p.declareAll ds).names.Nodup ∧
      calls.foldlM (addCall layout p.key file) run = .ok run' ∧
      Holds layout c (p.declareAll ds) (visited ++ ds.flatMap (Declaration.targets p.key)) run') ∨
    (∃ fault, calls.foldlM (addCall layout p.key file) run = .error fault ∧
      ∀ ds, calls.mapM (fun call => Declaration.ofCall call file) = .ok ds →
        (p.declareAll ds).names.Nodup →
        ∃ d ∈ ds, ∃ raw ∈ d.deps, ∀ target, Reference.target? p.key raw = some target →
          layout.fileOf? target = none) := by
  induction calls generalizing p visited run with
  | nil =>
      refine .inl ⟨[], run, rfl, fun _ hd => absurd hd List.not_mem_nil, ?_, rfl, ?_⟩
      · rwa [Contents.declareAll_nil]
      · rw [Contents.declareAll_nil, List.flatMap_nil, List.append_nil]
        exact h
  | cons call rest ih =>
      rw [List.foldlM_cons]
      rcases addCall_spec hc h call with ⟨d, run₁, hd, hname, hparse, hok, h₁⟩ | hfault
      · rw [hok]
        have hnames₁ : (p.declare d).names.Nodup := by
          rw [Contents.names_declare]
          exact List.nodup_append_comm.2 (List.nodup_cons.2 ⟨hname, hnames⟩)
        rcases ih (p := p.declare d) hc h₁ hnames₁ with ⟨ds, run₂, hds, hparses, hn, hok₂, h₂⟩ | hfault
        · refine .inl ⟨d :: ds, run₂, mapM_cons_eq_ok_iff.2 ⟨d, ds, hd, hds, rfl⟩, ?_, ?_, hok₂, ?_⟩
          · intro d' hd'
            rcases List.mem_cons.1 hd' with rfl | hd'
            · exact hparse
            · exact hparses d' hd'
          · rwa [Contents.declareAll_cons]
          · rw [Contents.declareAll_cons, List.flatMap_cons, ← List.append_assoc]
            exact h₂
        · obtain ⟨fault, herr, hwhy⟩ := hfault
          refine .inr ⟨fault, herr, fun ds hds hn => ?_⟩
          obtain ⟨d', ds', hd', hds', rfl⟩ := mapM_cons_eq_ok_iff.1 hds
          obtain rfl : d = d' := Except.ok.inj (hd.symm.trans hd')
          rw [Contents.declareAll_cons] at hn
          obtain ⟨e, he, hraw⟩ := hwhy ds' hds' hn
          exact ⟨e, List.mem_cons_of_mem _ he, hraw⟩
      · -- the first call is at fault, so its dependencies are among those of all calls
        obtain ⟨fault, herr, hwhy⟩ := hfault
        rw [herr]
        refine .inr ⟨fault, rfl, fun ds hds hn => ?_⟩
        obtain ⟨d, ds', hd, -, rfl⟩ := mapM_cons_eq_ok_iff.1 hds
        have hname : d.name ∉ p.names := by
          rw [Contents.names_declareAll, List.map_cons, List.nodup_middle, List.nodup_cons] at hn
          exact fun hm => hn.1 (List.mem_append_left _ hm)
        exact ⟨d, List.mem_cons_self .., hwhy d hd hname⟩

end PackageRun

namespace Loading

variable {layout : Layout} {w : Workspace} {c : Catalog} {task : LoadTask}

/-- A task whose package is new adopts the contents of its file, and every package they
    refer to is known or becomes a task; or the file is at fault, or refers to a package that
    has no declaration file. -/
theorem loadPackage_spec (hc : c.contains task.key = false) :
    (∃ p tasks, p.key = task.key ∧ p.file = task.file ∧ p.Sound w ∧
      loadPackage layout w c task = .ok (c.adopt p, tasks) ∧
      (∀ target ∈ p.targets, (c.adopt p).contains target = true ∨ ∃ t ∈ tasks, t.key = target) ∧
      (∀ t ∈ tasks, t.key ∈ p.targets ∧ layout.fileOf? t.key = some t.file)) ∨
    (∃ fault, loadPackage layout w c task = .error fault ∧
      ∀ p : Contents, p.key = task.key → p.file = task.file → p.Sound w →
        ∃ target ∈ p.targets, layout.fileOf? target = none) := by
  have hbegin := Catalog.begin_eq_adopt task.file hc
  have hstart : PackageRun.Holds layout c ⟨task.key, task.file, []⟩ []
      { catalog := c.begin task.key task.file } :=
    ⟨hbegin, fun _ ht => absurd ht List.not_mem_nil, fun _ ht => absurd ht List.not_mem_nil,
      fun _ ht => absurd ht List.not_mem_nil⟩
  rw [loadPackage]
  cases heval : w.evaluate task.file with
  | error failure =>
      have hnot : ∀ p : Contents, p.file = task.file → ¬ p.Sound w := by
        intro p hfile hp
        obtain ⟨calls, hcalls, -⟩ := hp.calls
        rw [hfile, heval] at hcalls
        cases hcalls
      cases failure with
      | panicked message => exact .inr ⟨_, rfl, fun p _ hfile hp => absurd hp (hnot p hfile)⟩
      | fault fault => exact .inr ⟨_, rfl, fun p _ hfile hp => absurd hp (hnot p hfile)⟩
  | ok calls =>
      rcases PackageRun.foldlM_addCall_spec task.file calls hc hstart List.nodup_nil with
        ⟨ds, run, hds, hparses, hnames, hok, hrun⟩ | ⟨fault, herr, hwhy⟩
      · refine .inl ⟨Contents.declareAll ⟨task.key, task.file, []⟩ ds, run.tasks, rfl, rfl,
          ⟨⟨calls, heval, hds⟩, hparses, hnames⟩, ?_, fun target ht => ?_, hrun.tasks⟩
        · have hfinish : run.catalog.finish task.key =
              c.adopt (Contents.declareAll ⟨task.key, task.file, []⟩ ds) := by
            rw [hrun.catalog]
            exact Catalog.finish_adopt hc
          simp only [hok, hfinish]
        · have hcov := hrun.covered target ht
          rwa [Catalog.contains_adopt] at hcov ⊢
      · refine .inr ⟨blame task.referrer fault, ?_, fun p hkey hfile hp => ?_⟩
        · simp only [herr]
        · obtain ⟨calls', hcalls', hds⟩ := hp.calls
          rw [hfile] at hcalls' hds
          obtain rfl := Except.ok.inj (heval.symm.trans hcalls')
          obtain ⟨d, hd, raw, hraw, hnone⟩ := hwhy p.declarations hds hp.names
          obtain ⟨target, ht⟩ := Reference.exists_target?_iff.2 (hp.parses d hd raw hraw)
          refine ⟨target, ?_, hnone target (hkey ▸ ht)⟩
          exact List.mem_flatMap.2 ⟨d, hd, List.mem_filterMap.2 ⟨raw, hraw, ht⟩⟩

end Loading

end Buildwright
