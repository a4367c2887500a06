import Buildwright.CommandLine.Invocation
import Buildwright.Output.Generate

/-!
# Runs

A run carries out an invocation on a disk: it changes the disk, prints a text, and ends
well or with a failure. A failure says what the run was doing and why that was not
possible.

## Contents

* `Activity`, `Run.Failure`, `Run` — how a run ends;
* `Run.generate`, `Run.deleteFiles` — the commands that touch the disk;
* `Invocation.run` — a run of an invocation.
-/

namespace Buildwright

open CommandLine

/-- What a run can be doing when it fails. -/
inductive Activity where
  | resolvingRoot (base : Path)
  | loadingConfiguration (root : Path)
  | startingSession
  | generating
  | writing
  | deleting (path : Path)
deriving DecidableEq, Repr, Inhabited

def Activity.text : Activity → String
  | resolvingRoot base => "resolving project root " ++ base.text
  | loadingConfiguration root => "loading configuration in " ++ root.text
  | startingSession => "starting session"
  | generating => "generating build scripts"
  | writing => "writing generated files"
  | deleting path => "deleting " ++ path.text

/-- Why an activity was not possible. -/
inductive Cause where
  | fault (fault : Fault)
  | refused (refusal : Refusal)
deriving DecidableEq, Repr, Inhabited

def Cause.text : Cause → String
  | fault f => f.message
  | refused r => r.text

/-- How a run fails. -/
structure RunFailure where
  activity : Activity
  cause : Cause
deriving DecidableEq, Repr, Inhabited

/-- What a run leaves: the disk, what was printed, and how it ended. -/
structure Run where
  disk : Disk
  printed : String := ""
  result : Except RunFailure Unit := .ok ()

namespace Run

def failed (d : Disk) (activity : Activity) (cause : Cause) : Run where
  disk := d
  result := .error ⟨activity, cause⟩

/-- What a command line overrides. -/
def overrides (jobs : Option Nat) (r : Request) : Configuration.Overrides where
  buildRoot := r.buildRoot
  buildTypes := r.buildTypes
  formats := r.formats
  jobs := jobs

/-- The session of a request, and the files to start from. -/
def begin_ (d : Disk) (root : Path) (environment : List (String × String)) (jobs : Option Nat)
    (r : Request) : Except RunFailure (Session × List Path) := do
  let settings ←
    (Configuration.load d root environment (overrides jobs r)).mapError fun fault =>
      ⟨.loadingConfiguration root, .fault fault⟩
  let session ← (settings.start root).mapError fun fault => ⟨.startingSession, .fault fault⟩
  return (session, if r.files = [] then [⟨settings.buildFile⟩] else r.files)

/-- The files of a request. -/
def files (d : Disk) (root : Path) (environment : List (String × String)) (jobs : Option Nat)
    (r : Request) : Except RunFailure (Session × GeneratedFiles) := do
  let (session, roots) ← begin_ d root environment jobs r
  let files ← (session.generate d.workspace roots).mapError fun fault =>
    ⟨.generating, .fault fault⟩
  return (session, files)

/-- The text printed at the end of a generation. -/
def summaryText (files : GeneratedFiles) (session : Session) (s : CommitSummary) : String :=
  "Generated " ++ toString files.files.length ++ " files in " ++ session.layout.buildRoot.text ++
    " (" ++ toString s.unchanged ++ " unchanged)\n"

/-- Generate the build scripts of the project below `root`. Nothing is written before all
    files are complete; what was written before a fault stays. -/
def generate (d : Disk) (root : Path) (environment : List (String × String)) (jobs : Option Nat)
    (r : Request) : Run :=
  match files d root environment jobs r with
  | .error failure => { disk := d, result := .error failure }
  | .ok (session, files) =>
    let (d', result) := files.commit root d
    match result with
    | .error fault => failed d' .writing (.fault fault)
    | .ok summary => { disk := d', printed := summaryText files session summary }

/-- Delete files and directories one after the other. What does not exist is passed
    over. -/
def deleteFiles (base : Path) : Disk → List Path → Run
  | d, [] => { disk := d }
  | d, path :: rest =>
    let target := base.join path
    let (d', result) := d.delete target
    match result with
    | .ok () | .error .notFound => deleteFiles base d' rest
    | .error refusal => failed d' (.deleting target) (.refused refusal)

/-- A text that a terminal shows in a colour. -/
def colored (color : Color) (text : String) : String :=
  "\x1b[" ++ toString color.ansiCode ++ "m" ++ text ++ "\x1b[0m\n"

/-- The version of the program. -/
def versionText : String := "jk 0.1.0\n"

/-- Carry out a command in a directory. -/
def ofCommand (d : Disk) (base : Path) (environment : List (String × String))
    (jobs : Option Nat) : Command → Run
  | .generate request => generate d base environment jobs request
  | .version => { disk := d, printed := versionText }
  | .deleteFiles paths => deleteFiles base d paths
  | .echoColor color words => { disk := d, printed := colored color (" ".intercalate words) }

end Run

/-- Carry out an invocation in the current directory of a disk, or in the directory that
    it asks for. -/
def CommandLine.Invocation.run (i : Invocation) (environment : List (String × String))
    (d : Disk) : Run :=
  let current := Disk.pathOf d.current
  let base :=
    match i.directory with
    | some directory => current.join directory
    | none => current
  match d.canonical base with
  | .error refusal => Run.failed d (.resolvingRoot base) (.refused refusal)
  | .ok root => Run.ofCommand d root environment i.jobs i.effective

end Buildwright
