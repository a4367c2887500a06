import Buildwright.Linked
import Buildwright.Path.Normal
import Buildwright.Session
import Buildwright.Workspace

/-!
# Prepared rules

Preparing a rule resolves everything that its outputs need: the rules it depends on
in order, the flags it inherits from them, its files, and the artifacts that other
rules use. No two rules may share a source.

## Contents

* `SourceFile`, `Resolved`, `Prepared`;
* `Flags` — inherited flags, dependencies first;
* `Preparer.files` — sources and headers of a rule;
* `Preparer.artifacts` — what a rule leaves for others;
* `Prepared.ofLinked` — all rules, or the first failure in order of names.
-/

namespace Buildwright

/-- A source of a rule. -/
structure SourceFile where
  /-- The path inside the package, or the names of the path of a file outside it; it
      names the object file. -/
  stem : String
  /-- The path relative to the project root. -/
  path : Path
deriving DecidableEq, Repr, Inhabited

namespace SourceFile

/-- Whether the source is compiled as C and not as C++. -/
def isC (s : SourceFile) : Bool := s.path.extension? = some "c"

end SourceFile

/-- What is known of a rule once it is prepared. -/
structure Resolved where
  /-- Include flags, those of dependencies first. -/
  includes : List String := []
  /-- Macro flags, those of dependencies first. -/
  defines : List String := []
  /-- Linker flags of dependencies. -/
  inherited : List String := []
  sources : List SourceFile := []
  /-- Headers relative to the project root. -/
  headers : List Path := []
  /-- What other rules use, by build type. -/
  artifacts : List (BuildType × List Path) := []
  /-- Everything the rule depends on, each after its own dependencies. -/
  order : List RuleId := []
deriving DecidableEq, Repr, Inhabited

namespace Resolved

def artifactsFor (r : Resolved) (t : BuildType) : List Path :=
  (r.artifacts.lookup t).getD []

end Resolved

/-- Linked rules with what is known of each. -/
structure Prepared where
  linked : Linked
  resolved : List Resolved
  length_eq : resolved.length = linked.set.rules.length
deriving DecidableEq

namespace Prepared

def rule (p : Prepared) (id : RuleId) : Rule := p.linked.set.rules.getD id default

def at_ (p : Prepared) (id : RuleId) : Resolved := p.resolved.getD id default

end Prepared

/-- The flags that a rule gathers. -/
structure Flags where
  includes : List String := []
  defines : List String := []
  linker : List String := []
deriving DecidableEq, Repr, Inhabited

namespace Flags

/-- The flags that the attributes of one rule declare. -/
def own (a : CcAttributes) : Flags where
  includes := a.include_.map ("-I" ++ ·)
  defines := a.defines.map ("-D" ++ ·)
  linker := a.ldflags

/-- The flags that the rules of a list declare, in order and each once. -/
def ofRules (s : RuleSet) (order : List RuleId) : Flags :=
  let flags := (order.filterMap fun id => (s.rules[id]?).bind Rule.cc?).map own
  { includes := (flags.flatMap includes).eraseDups
    defines := (flags.flatMap defines).eraseDups
    linker := (flags.flatMap linker).eraseDups }

end Flags

/-- What preparing a rule needs besides the rules. -/
structure Preparer where
  layout : Layout
  buildTypes : List BuildType
  expand : String → Path → Except ExpandFault (List String)

namespace Preparer

/-- The files that a list of patterns matches, in order and each once. -/
def expandAll (p : Preparer) (rule : Rule) (patterns : List String) (base : Path) :
    Except Failure (List String) := do
  let found ← patterns.mapM fun pattern =>
    match p.expand pattern base with
    | .ok files => Except.ok files
    | .error (.panicked message) => .error (.panicked message)
    | .error fault => .error (.fault (.badPattern rule.fullName pattern fault.message))
  return found.flatten.eraseDups

/-- The path of a matched file relative to the project root. -/
def projectPath (rule : Rule) (packageDir : Path) (matched : String) : Outcome Path :=
  let path := packageDir.join ⟨matched⟩
  -- only the builtin tree may lie outside the project
  if path.climbs && !Package.Key.isBuiltin rule.package then
    .error (.sourceOutsideProject path.normal.text rule.fullName)
  else .ok path.normal

def namesOf (path : Path) : List String :=
  path.components.filterMap fun
    | .name n => some n
    | _ => none

/-- What names the object file of a source. -/
def stem (path packageDir : Path) : String :=
  match path.stripPrefix? packageDir with
  | some inside => inside.text
  | none => "/".intercalate (namesOf path)

/-- Turn an outcome into the result of a task. -/
def lift {α : Type} : Outcome α → Except Failure α
  | .ok a => .ok a
  | .error fault => .error (.fault fault)

/-- Sources and headers of a compiled rule: what its patterns match and its excludes do
    not. -/
def files (p : Preparer) (rule : Rule) (a : CcAttributes) :
    Except Failure (List SourceFile × List Path) := do
  let packageDir := (p.layout.packageDir rule.package).normal
  let base := p.layout.packageDirOnDisk rule.package
  let excluded ← p.expandAll rule a.excludes base
  let sources ← p.expandAll rule a.srcs base
  let headers ← p.expandAll rule a.headers base
  let sources ← lift ((sources.filter (· ∉ excluded)).mapM (projectPath rule packageDir))
  let headers ← lift ((headers.filter (· ∉ excluded)).mapM (projectPath rule packageDir))
  return (sources.map fun path => ⟨stem path packageDir, path⟩, headers)

/-- The stamp of an external project that has been installed. -/
def installedStamp : Path := ⟨".installed"⟩

/-- The stamp of a script that has run. -/
def doneStamp : Path := ⟨".done"⟩

/-- What a rule leaves for a build type. -/
def artifactsOf (p : Preparer) (rule : Rule) (sources : List SourceFile) (t : BuildType) :
    List Path :=
  let folder := rule.workingFolder p.layout.buildRoot
  match rule.declaration.attributes with
  | .cc _ =>
    let dir := folder.join ⟨t.name⟩
    if rule.type.isLibrary then
      -- a library without sources has nothing to archive
      if sources.isEmpty then [] else [dir.join ⟨"lib" ++ rule.name ++ ".a"⟩]
    else [dir.join ⟨rule.name⟩]
  | .external a => folder.join installedStamp :: a.exports.map fun file => folder.join ⟨file⟩
  | .script a =>
    if a.outputs.isEmpty then [folder.join doneStamp]
    else a.outputs.map fun file => (p.layout.packageDir rule.package).join ⟨file⟩

def prepareRule (p : Preparer) (l : Linked) (rule : Rule) : Except Failure Resolved := do
  let order ← lift (l.dependenciesInOrder rule.id)
  let artifacts (sources : List SourceFile) :=
    p.buildTypes.map fun t => (t, p.artifactsOf rule sources t)
  match rule.cc? with
  | none => return { order, artifacts := artifacts [] }
  | some a =>
    let inherited := Flags.ofRules l.set order
    let own := Flags.own a
    let (sources, headers) ← p.files rule a
    return {
      includes := (inherited.includes ++ own.includes).eraseDups
      defines := (inherited.defines ++ own.defines).eraseDups
      inherited := inherited.linker
      sources, headers, order
      artifacts := artifacts sources }

end Preparer

def Rule.objectPath (rule : Rule) (buildRoot : Path) (t : BuildType) (s : SourceFile) : Path :=
  ((rule.workingFolder buildRoot).join ⟨t.name⟩).join ⟨s.stem ++ ".o"⟩

namespace Prepared

/-- The first source in a list of claims that another rule has claimed before, with
    both rules. -/
def conflict? : List (Path × RuleId) → List (Path × RuleId) → Option (Path × RuleId × RuleId)
  | _, [] => none
  | owners, (path, id) :: rest =>
    match owners.lookup path with
    | some first =>
      if first ≠ id then some (path, first, id) else conflict? owners rest
    | none => conflict? ((path, id) :: owners) rest

/-- Who claims which source, in order of names. -/
def claims (set : RuleSet) (resolved : List Resolved) : List (Path × RuleId) :=
  set.idsByName.flatMap fun id =>
    ((resolved.getD id default).sources).map fun s => (s.path, id)

/-- Check that no source belongs to two rules. -/
def checkOwnership (set : RuleSet) (resolved : List Resolved) : Outcome Unit :=
  match conflict? [] (claims set resolved) with
  | some (path, first, second) =>
    .error (.duplicateSource path.text (set.fullName first) (set.fullName second))
  | none => .ok ()

/-- The first message of a task that broke off. -/
def firstPanic? {α : Type} : List (Except Failure α) → Option String
  | [] => none
  | .error (.panicked message) :: _ => some message
  | _ :: rest => firstPanic? rest

def firstFault? {α : Type} : List (Except Failure α) → Option Fault
  | [] => none
  | .error (.fault fault) :: _ => some fault
  | _ :: rest => firstFault? rest

/-- Prepare all rules, or report the first failure in the order of names. -/
def ofLinked (p : Preparer) (l : Linked) : Outcome Prepared := do
  let results := l.set.byName.map (p.prepareRule l)
  -- a task that broke off comes before every fault
  match firstPanic? results with
  | some message => .error (.workerPool (.panicked message))
  | none =>
    match firstFault? results with
    | some fault => .error fault
    | none =>
      let resolved := l.set.rules.map fun rule => (p.prepareRule l rule).toOption.getD default
      checkOwnership l.set resolved
      return { linked := l, resolved, length_eq := by simp [resolved] }

end Prepared

end Buildwright
