import Buildwright.Emission
import Buildwright.Make.Target

/-!
# Makefile fragments of rules

Every rule has a fragment of its own: a phony target that stands for the rule, one
for every build type, and the targets that make its files.

## Contents

* `ofCc` — objects and their library or program;
* `ofExternal`, `ofScript` — scripts, with a stamp that tells that they have run;
* `fragmentPath` — where the fragment goes.
-/

namespace Buildwright.Make

def fragmentPath (e : Emission) (rule : Rule) : Path :=
  e.buildRoot.join ⟨rule.quotedName ++ ".mk"⟩

/-- The target that stands for a rule in a build type. -/
def typeTarget (rule : Rule) (t : BuildType) : String :=
  rule.quotedName ++ "." ++ t.target

/-- The target that stands for a rule, and those for its build types. -/
def standFor (e : Emission) (rule : Rule) : List String :=
  rule.quotedName :: e.session.buildTypes.map (typeTarget rule)

def fragment (e : Emission) (rule : Rule) (targets : List Target) : Fragment where
  title := rule.fullName ++ " (" ++ rule.type.name ++ ")"
  phony := standFor e rule
  targets :=
    { outputs := [rule.quotedName], prerequisites := (standFor e rule).drop 1 } :: targets

def isLibraryFile (file : Path) : Bool :=
  [".a", ".so"].any fun ending => ending.toList.isSuffixOf file.text.toList

def texts (paths : List Path) : List String := paths.map Path.text

/-- The recipe that makes the artifact of a rule from its objects. -/
def linkRecipe (e : Emission) (id : RuleId) (t : BuildType) (artifact : Path)
    (objects : List Path) : List String :=
  let rule := e.rule id
  let tools := e.session.toolchain
  let create := makeDirectory (directoryOf artifact)
  if rule.type.isLibrary then
    [create, "@rm -f " ++ word artifact.text,
      line ([tools.ar, "rcs", artifact.text] ++ texts objects)]
  else
    -- on the link line a rule stands before the rules it depends on
    let libraries :=
      ((e.resolved id).order.reverse.flatMap fun d => (e.resolved d).artifactsFor t).filter
        isLibraryFile
    let own := (rule.cc?.map CcAttributes.ldflags).getD []
    [create,
      line (tools.cxx :: t.flags ++ ["-o", artifact.text] ++ texts objects ++
        (texts libraries).eraseDups ++ own ++ (e.resolved id).inherited)]

/-- The target of the object of a source. -/
def objectTarget (e : Emission) (id : RuleId) (t : BuildType) (deps : List Path)
    (s : SourceFile) : Target :=
  let command := e.compileCommand id s t
  { outputs := [command.object.text]
    prerequisites := command.source.text :: texts (e.resolved id).headers
    orderOnly := texts (deps.filter fun d => !isLibraryFile d)
    recipe := [makeDirectory (directoryOf command.object), line command.arguments] }

/-- The targets of a compiled rule in a build type. -/
def ccTargets (e : Emission) (id : RuleId) (t : BuildType) : List Target :=
  let rule := e.rule id
  let known := e.resolved id
  let deps := e.dependencyArtifacts id t
  let objects := known.sources.map fun s => (e.compileCommand id s t).object
  known.sources.map (objectTarget e id t deps) ++
    match (known.artifactsFor t).head? with
    | some artifact =>
      [{ outputs := [artifact.text]
         prerequisites := texts (objects ++ deps)
         recipe := linkRecipe e id t artifact objects },
       { outputs := [typeTarget rule t], prerequisites := [artifact.text] }]
    | none => [{ outputs := [typeTarget rule t], prerequisites := texts deps }]

def ofCc (e : Emission) (id : RuleId) : Fragment :=
  fragment e (e.rule id) (e.session.buildTypes.flatMap (ccTargets e id))

/-- The fragment of a rule that a command builds: the command leaves a stamp, and all
    that it makes is made once the stamp is there. -/
def ofCommand (e : Emission) (id : RuleId) (stamp : Path) (command : String)
    (products : List Path) : Fragment :=
  let rule := e.rule id
  let deps := Path.distinct (e.session.buildTypes.flatMap (e.dependencyArtifacts id))
  let stampTarget : Target := {
    outputs := [stamp.text]
    prerequisites := texts deps
    recipe :=
      [makeDirectory (directoryOf stamp), command, "@touch " ++ word stamp.text] }
  let productTarget : List Target :=
    if products.isEmpty then []
    else [{ outputs := texts products, prerequisites := [stamp.text] }]
  let typeTargets : List Target := e.session.buildTypes.map fun t =>
    { outputs := [typeTarget rule t], prerequisites := texts (stamp :: products) }
  fragment e rule (stampTarget :: productTarget ++ typeTargets)

def ofExternal (e : Emission) (id : RuleId) (a : ExternalAttributes) : Fragment :=
  let folder := (e.rule id).workingFolder e.buildRoot
  ofCommand e id (folder.join Preparer.installedStamp)
    ("cd " ++ word folder.text ++ " && " ++ script a.installScript)
    (a.exports.map fun file => folder.join ⟨file⟩)

def ofScript (e : Emission) (id : RuleId) (a : ScriptAttributes) : Fragment :=
  let rule := e.rule id
  let packageDir := e.session.layout.packageDir rule.package
  let dir := if packageDir.text.isEmpty then "." else word packageDir.text
  ofCommand e id ((rule.workingFolder e.buildRoot).join Preparer.doneStamp)
    ("cd " ++ dir ++ " && " ++ script a.script)
    (a.outputs.map fun file => packageDir.join ⟨file⟩)

end Buildwright.Make
