import Buildwright.Configuration.Environment
import Buildwright.Configuration.File
import Buildwright.FileTree.Disk

/-!
# Loading the settings

The settings of a run are composed of what is built in, the configuration file of the
project, the environment and the command line, and then checked.

## Contents

* `Overrides` — what the command line gives;
* `compose` — the checked settings of the layers;
* `load` — the settings of a project on a disk.
-/

namespace Buildwright.Configuration

/-- What the command line gives. An empty list gives nothing. -/
structure Overrides where
  buildRoot : Option Path := none
  buildTypes : List String := []
  formats : List String := []
  jobs : Option Nat := none
deriving DecidableEq, Repr, Inhabited

/-- The layer of the command line. -/
def Overrides.layer (o : Overrides) : Layer where
  buildRoot := o.buildRoot.map .ok
  buildTypes := if o.buildTypes = [] then none else some (buildTypesOf o.buildTypes)
  formats := if o.formats = [] then none else some (.ok o.formats)
  jobs := o.jobs.map fun n => .ok (some n)

/-- Whether a text can be the name of a file in a directory. -/
def isPlainFileName (name : String) : Bool :=
  !name.isEmpty && !name.toList.contains '/'

/-- Check settings as a whole. -/
def check (s : Settings) : Outcome Settings :=
  if s.jobs = some 0 then .error (.config .noJobs)
  else if s.buildTypes = [] then .error (.config .noBuildTypes)
  else if isPlainFileName s.buildFile then .ok s
  else .error (.config (.notPlainFileName s.buildFile))

/-- The checked settings of the layers of a file, an environment and a command line. -/
def compose (file environment commandLine : Layer) : Outcome Settings :=
  match (commandLine.upon (environment.upon file)).settings with
  | .ok s => check s
  | .error reason => .error (.config (.malformed reason))

/-- The name of the configuration file of a project. -/
def fileName : String := "jkbuild.yml"

/-- The layer of the configuration file of a project; none if there is no such file. -/
def fileLayer (d : Disk) (projectRoot : Path) : Outcome Layer :=
  let path := projectRoot.join ⟨fileName⟩
  if d.isFile path then
    match d.readText path with
    | .error refusal => .error (.io path.text refusal)
    | .ok content =>
      (Layer.ofFile content).mapError fun reason =>
        .config (.malformed (path.text ++ ": " ++ reason))
  else .ok {}

/-- The settings of a project. -/
def load (d : Disk) (projectRoot : Path) (environment : List (String × String))
    (overrides : Overrides) : Outcome Settings := do
  let file ← fileLayer d projectRoot
  compose file (.ofEnvironment environment) overrides.layer

end Buildwright.Configuration
