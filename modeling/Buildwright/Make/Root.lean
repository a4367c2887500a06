import Buildwright.Make.Rules

/-!
# The top makefile

The top makefile includes the fragments of all rules and adds the targets that stand
for all of them: `all`, one for every build type, `test` and `clean`. It also knows
the command that makes it anew.

## Contents

* `Root` and its text;
* `Root.ofEmission` — the top makefile of a run.
-/

namespace Buildwright.Make

/-- The top makefile. -/
structure Root where
  /-- The targets that are no files. -/
  phony : List String
  /-- The target that is made if none is named. -/
  all : Target
  /-- The fragments to include. -/
  includes : List String
  targets : List Target
deriving DecidableEq, Repr, Inhabited

namespace Root

/-- The text of the top makefile. -/
def text (r : Root) : String :=
  header ++ "\n\nJK ?= jk\n.DEFAULT_GOAL := all\n.PHONY: " ++ names r.phony ++ "\n\n" ++
    r.all.text ++ String.join (r.includes.map fun file => "include " ++ name file ++ "\n") ++
    "\n" ++ String.join (r.targets.map Target.text)

def fileName : String := "Makefile"

/-- The path of the top makefile. -/
def path (e : Emission) : Path := e.buildRoot.join ⟨fileName⟩

def hasFragment (registry : Registry) (rule : Rule) : Bool :=
  match registry.find? Registry.makefileFormat rule.type.name with
  | some (.compiler _) => true
  | _ => false

/-- The rules that have a fragment. -/
def compiled (e : Emission) : List Rule :=
  (e.order.map e.rule).filter (hasFragment e.session.registry)

/-- The build type that tests are run in: debug if it is built, else the first one. -/
def testType (e : Emission) : BuildType :=
  if .debug ∈ e.session.buildTypes then .debug
  else e.session.buildTypes.headD .debug

def tests (e : Emission) : List (RuleId × Path) :=
  e.order.filterMap fun id =>
    if (e.rule id).type.isTest then
      (((e.resolved id).artifactsFor (testType e)).head?).map fun program => (id, program)
    else none

/-- The commands that run a test. -/
def testRecipe (e : Emission) (id : RuleId) (program : Path) : List String :=
  let rule := e.rule id
  let args := (rule.cc?.map CcAttributes.args).getD []
  ["@$(JK) echo-color green " ++ word ("Running " ++ rule.fullName),
    line (program.text :: args)]

def testTarget (e : Emission) : Target where
  outputs := ["test"]
  prerequisites := (tests e).map fun t => t.2.text
  recipe := (tests e).flatMap fun t => testRecipe e t.1 t.2

/-- The target that deletes the folders of all rules. -/
def cleanTarget (e : Emission) : Target where
  outputs := ["clean"]
  recipe :=
    let folders := e.prepared.linked.set.byName.map fun rule =>
      (rule.workingFolder e.buildRoot).text
    if folders.isEmpty then [] else ["$(JK) delete-file " ++ line folders]

/-- The declaration files that are not of the builtin tree, as seen from the project
    root, in order of package keys. -/
def rootFiles (e : Emission) : List Path :=
  (e.prepared.linked.set.packages.filter fun p => !Package.Key.isBuiltin p.key).map fun p =>
    e.session.layout.relativize p.file

/-- The command that generates everything anew. -/
def regenerateCommand (e : Emission) : String :=
  let types := e.session.buildTypes.flatMap fun t => ["--build-type", t.name]
  let formats := e.session.formats.flatMap fun f => ["--format", word f]
  " ".intercalate
    (["$(JK)", "gen", "--build-root", word e.buildRoot.text] ++ types ++ formats ++
      (rootFiles e).map fun file => word file.text)

/-- The target that makes the top makefile anew when a declaration file changes. -/
def regenerateTarget (e : Emission) : Target where
  outputs := [(path e).text]
  prerequisites :=
    texts ((e.prepared.linked.set.files.map e.session.layout.relativize).mergeSort
      fun p q => !q.lt p)
  recipe := [regenerateCommand e]

/-- The top makefile of a run. -/
def ofEmission (e : Emission) : Root :=
  let types := e.session.buildTypes.map BuildType.target
  { phony := "all" :: types ++ ["test", "clean"]
    all := { outputs := ["all"], prerequisites := types }
    includes := (compiled e).map fun rule => (fragmentPath e rule).text
    targets :=
      e.session.buildTypes.map (fun t =>
        { outputs := [t.target], prerequisites := (compiled e).map fun r => typeTarget r t }) ++
        [testTarget e, cleanTarget e, regenerateTarget e] }

end Root

end Buildwright.Make
