/-!
# Faults

Everything that can stop a run, as causes. The wording lives here and nowhere
else: `Fault.message` is the text for the user, `Fault.code` a stable name of the
kind of fault, `Fault.help?` an optional hint.
-/

namespace Buildwright

/-- Why the file system refused an operation. -/
inductive Refusal where
  | notFound
  | isADirectory
  | notADirectory
  | alreadyExists
  /-- The content is not UTF-8 text. -/
  | invalidData
  /-- The path cannot name a file, or names one that cannot be removed. -/
  | invalidInput
  /-- The path or one of its names is too long. -/
  | invalidName
  | directoryNotEmpty
  /-- The path leads to a directory that is in use. -/
  | busy
deriving DecidableEq, Repr, Inhabited

namespace Refusal

/-- A short description of the refusal. -/
def text : Refusal → String
  | notFound => "no such file or directory"
  | isADirectory => "is a directory"
  | notADirectory => "not a directory"
  | alreadyExists => "file exists"
  | invalidData => "stream did not contain valid UTF-8"
  | invalidInput => "invalid argument"
  | invalidName => "file name too long"
  | directoryNotEmpty => "directory not empty"
  | busy => "resource busy"

end Refusal

/-- Why a pooled task has no value. -/
inductive TaskFault where
  /-- The task broke off with a message. -/
  | panicked (message : String)
  /-- The task was dropped before it ran. -/
  | cancelled
deriving DecidableEq, Repr, Inhabited

namespace TaskFault

/-- The text shown for a task without a value. -/
def message : TaskFault → String
  | panicked text => "task panicked: " ++ text
  | cancelled => "task was cancelled before it ran"

end TaskFault

/-- Why a configuration is refused. -/
inductive ConfigProblem where
  | noJobs
  | noBuildTypes
  | noFormats
  | unknownFormat (format : String) (known : List String)
  | notPlainFileName (name : String)
  | unknownBuildType (name : String)
  | noRootGenerator (format : String)
  | noRootFiles
  | outsideProject (file root : String)
  /-- A layer is malformed, or the merged value has the wrong shape. -/
  | malformed (text : String)
deriving DecidableEq, Repr, Inhabited

namespace ConfigProblem

/-- The text shown for a refused configuration. -/
def message : ConfigProblem → String
  | noJobs => "jobs must be at least 1"
  | noBuildTypes => "at least one build type is required"
  | noFormats => "at least one output format is required"
  | unknownFormat format known =>
    "unknown output format '" ++ format ++ "' (known: " ++ ", ".intercalate known ++ ")"
  | notPlainFileName name => "build_file must be a plain file name, got '" ++ name ++ "'"
  | unknownBuildType name =>
    "unknown build type '" ++ name ++ "' (expected DEBUG, RELEASE or PROFILING)"
  | noRootGenerator format => "no root generator for format '" ++ format ++ "'"
  | noRootFiles => "no BUILD files given"
  | outsideProject file root => file ++ " is outside the project root " ++ root
  | malformed text => text

end ConfigProblem

/-- What can stop a run. -/
inductive Fault where
  /-- A dependency string is not a rule reference. -/
  | reference (input reason : String)
  /-- A declaration file does not have the shape of rule declarations. -/
  | script (path message : String)
  /-- A declaration file is not a document at all. -/
  | unreadableScript (path : String)
  | io (path : String) (refusal : Refusal)
  | dependencyNotFound (rule target : String)
  | packageNotLoaded (rule package : String)
  | cycle (rules : List String)
  | duplicateRule (package name : String)
  | duplicateSource (path first second : String)
  | sourceOutsideProject (path rule : String)
  | noCompiler (format typeName rule : String)
  | badAttribute (rule name reason : String)
  | unknownRuleType (typeName path : String)
  | badPattern (rule pattern reason : String)
  | config (problem : ConfigProblem)
  | workerPool (fault : TaskFault)
  | outputFormat
  | internal (text : String)
deriving DecidableEq, Repr, Inhabited

namespace Fault

/-- The text shown to the user. -/
def message : Fault → String
  | reference input reason => "invalid rule identifier '" ++ input ++ "': " ++ reason
  | script path message => "failed to evaluate " ++ path ++ ": " ++ message
  | unreadableScript path => "failed to evaluate " ++ path ++ ": not a YAML document"
  | io path refusal => "I/O error on " ++ path ++ ": " ++ refusal.text
  | dependencyNotFound rule target =>
    "rule " ++ rule ++ " depends on " ++ target ++ ", which does not exist"
  | packageNotLoaded rule package =>
    "internal error: package '" ++ package ++ "' referenced by " ++ rule ++ " was never loaded"
  | cycle rules => "circular dependency among rules: " ++ " -> ".intercalate rules
  | duplicateRule package name =>
    "rule '" ++ name ++ "' is declared more than once in package '" ++ package ++ "'"
  | duplicateSource path first second =>
    "source " ++ path ++ " is claimed by both " ++ first ++ " and " ++ second
  | sourceOutsideProject path rule =>
    "source " ++ path ++ " of " ++ rule ++ " lies outside the project"
  | noCompiler format typeName rule =>
    "no '" ++ format ++ "' compiler registered for rule type '" ++ typeName ++
      "' (rule " ++ rule ++ ")"
  | badAttribute rule name reason => rule ++ ": attribute '" ++ name ++ "' " ++ reason
  | unknownRuleType typeName path => "unknown rule type '" ++ typeName ++ "' in " ++ path
  | badPattern rule pattern reason =>
    "invalid source pattern '" ++ pattern ++ "' in " ++ rule ++ ": " ++ reason
  | config problem => "configuration error: " ++ problem.message
  | workerPool fault => fault.message
  | outputFormat => "failed to format generated output"
  | internal text => "internal error: " ++ text

/-- A stable name of the kind of fault. -/
def code : Fault → String
  | reference .. => "jkbuild::id::parse"
  | script .. | unreadableScript .. => "jkbuild::frontend::script"
  | io .. => "jkbuild::io"
  | dependencyNotFound .. => "jkbuild::link::not_found"
  | packageNotLoaded .. => "jkbuild::link::not_loaded"
  | cycle .. => "jkbuild::analyze::cycle"
  | duplicateRule .. => "jkbuild::model::duplicate_rule"
  | duplicateSource .. => "jkbuild::prepare::duplicate_source"
  | sourceOutsideProject .. => "jkbuild::prepare::source_outside_project"
  | noCompiler .. => "jkbuild::compiler::unregistered"
  | badAttribute .. => "jkbuild::model::attribute"
  | unknownRuleType .. => "jkbuild::model::unknown_type"
  | badPattern .. => "jkbuild::prepare::pattern"
  | config .. => "jkbuild::config"
  | workerPool .. => "jkbuild::pool"
  | outputFormat => "jkbuild::writer::format"
  | internal .. => "jkbuild::internal"

/-- A hint on how to mend the fault. -/
def help? : Fault → Option String
  | reference .. =>
    some "references take the form //pkg:rule, ##pkg:rule, pkg:rule, or :rule"
  | dependencyNotFound .. =>
    some "check the package path and rule name of the dependency"
  | cycle .. => some "build graphs must be acyclic; remove one of the dependencies"
  | sourceOutsideProject .. =>
    some "declare the file in a package of its own and depend on that package"
  | unknownRuleType .. =>
    some "supported types: cc_library, cc_binary, cc_test, external_project, shell_script"
  | _ => none

end Fault

/-- How a task can end without a value: with a fault, or broken off. -/
inductive Failure where
  | fault (fault : Fault)
  | panicked (message : String)
deriving DecidableEq, Repr, Inhabited

/-- A result or the fault that prevented it. -/
abbrev Outcome := Except Fault

end Buildwright
