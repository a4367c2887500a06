import Buildwright.Layout
import Buildwright.Package.Catalog
import Buildwright.Reference
import Buildwright.Workspace

/-!
# Loading

Loading starts with the packages of the root files and goes on to every package that
a dependency refers to. Each package is a task: its declaration file is evaluated,
its rules are added to the catalog, and packages that the catalog does not know yet
become further tasks. The first fault ends the loading.

## Contents

* `LoadTask` — a package that waits to be loaded;
* `PackageRun` — one task from its first rule to its last;
* `Loading.loadPackage` — the effect of a task on the catalog;
* `Loading.run` — all tasks, first in, first out;
* `Loading.load` — loading from a list of root files.
-/

namespace Buildwright

/-- The rule and the dependency text that led to a package. -/
structure Referrer where
  rule : String
  target : String
deriving DecidableEq, Repr, Inhabited

/-- A package that waits to be loaded. -/
structure LoadTask where
  key : String
  file : Path
  referrer : Option Referrer := none
deriving DecidableEq, Repr, Inhabited

/-- A package while its rules are added. -/
structure PackageRun where
  catalog : Catalog
  /-- Packages that have been referred to. -/
  seen : List String := []
  /-- The tasks that the package gives rise to, in order. -/
  tasks : List LoadTask := []
deriving Inhabited

namespace PackageRun

/-- Refer to the package `target`, for which a task is made unless it is known. -/
def refer (layout : Layout) (id : RuleId) (raw target : String) (run : PackageRun) :
    Outcome PackageRun :=
  -- referred to before
  if target ∈ run.seen then .ok run
  else if run.catalog.contains target then .ok { run with seen := target :: run.seen }
  else
    let rule := ((run.catalog.rule? id).map Rule.fullName).getD ""
    match layout.fileOf? target with
    | none => .error (.dependencyNotFound rule (raw ++ " (no builtin root is configured)"))
    | some file =>
      let task := { key := target, file, referrer := some { rule, target := raw } }
      .ok { run with seen := target :: run.seen, tasks := run.tasks ++ [task] }

/-- Follow a dependency text of the rule `id`. -/
def follow (layout : Layout) (key : String) (id : RuleId) (raw : String) (run : PackageRun) :
    Outcome PackageRun := do
  let reference ← Reference.parse raw
  -- the declaring package is being loaded and needs no task
  if reference.position = .this ∨ reference.resolve key = key then return run
  else run.refer layout id raw (reference.resolve key)

/-- Add the rule that a call declares and follow its dependencies. -/
def addCall (layout : Layout) (key : String) (file : Path) (run : PackageRun) (call : Call) :
    Outcome PackageRun := do
  let declaration ← Declaration.ofCall call file
  let (id, catalog) ← run.catalog.addRule key declaration
  declaration.deps.foldlM (fun run raw => run.follow layout key id raw) { run with catalog }

end PackageRun

namespace Loading

/-- The failure of a task that broke off. -/
def incomplete (key : String) : Fault :=
  .internal ("loader task for package '" ++ key ++ "' did not complete")

/-- A declaration file that a dependency led to and that is not there is the fault of
    the dependency. -/
def blame (referrer : Option Referrer) : Fault → Fault
  | .io path .notFound =>
    match referrer with
    | some r => .dependencyNotFound r.rule r.target
    | none => .io path .notFound
  | fault => fault

/-- Run a task whose package is new to the catalog. -/
def loadPackage (layout : Layout) (w : Workspace) (c : Catalog) (task : LoadTask) :
    Outcome (Catalog × List LoadTask) :=
  let c := c.begin task.key task.file
  match w.evaluate task.file with
  | .error (.panicked _) => .error (incomplete task.key)
  | .error (.fault fault) => .error (blame task.referrer fault)
  | .ok calls =>
    match calls.foldlM (PackageRun.addCall layout task.key task.file) { catalog := c } with
    | .error fault => .error (blame task.referrer fault)
    | .ok run => .ok (run.catalog.finish task.key, run.tasks)

/-- Run the tasks of a queue, first in, first out, with at most `fuel` new packages. -/
def run (layout : Layout) (w : Workspace) : Nat → Catalog → List LoadTask → Outcome Catalog
  | _, c, [] => .ok c
  | fuel, c, task :: queue =>
    if c.contains task.key then run layout w fuel c queue
    else
      match fuel with
      | 0 => .error (.internal "more packages than declaration files")
      | fuel + 1 => do
        let (c, tasks) ← loadPackage layout w c task
        run layout w fuel c (queue ++ tasks)
termination_by fuel _ queue => (fuel, queue.length)

def rootTask (layout : Layout) (file : Path) : Outcome LoadTask := do
  let (key, file) ← layout.packageOf file
  return { key, file }

/-- Load everything that the root files lead to. -/
def load (layout : Layout) (w : Workspace) (roots : List Path) : Outcome Catalog := do
  let tasks ← roots.mapM (rootTask layout)
  run layout w (w.capacity + tasks.length) {} tasks

end Loading

end Buildwright
