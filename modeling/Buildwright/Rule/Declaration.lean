import Buildwright.Argument
import Buildwright.Fault
import Buildwright.Path.Basic

/-!
# Rule declarations

A declaration is a call of a rule type whose arguments have been checked: every
argument is an attribute of the type, has the type of the attribute, and the
attributes a rule cannot do without are there.

## Contents

* `RuleType`, its capabilities and its name;
* `Declaration` — a checked call, with `Attributes` by kind of rule;
* `Declaration.ofCall` — the check.
-/

namespace Buildwright

/-- The rule types that a declaration file can call. -/
inductive RuleType where
  | ccLibrary
  | ccBinary
  | ccTest
  | externalProject
  | shellScript
deriving DecidableEq, Repr, Inhabited

namespace RuleType

def all : List RuleType :=
  [ccLibrary, ccBinary, ccTest, externalProject, shellScript]

/-- The name by which a declaration file calls the type. -/
def name : RuleType → String
  | ccLibrary => "cc_library"
  | ccBinary => "cc_binary"
  | ccTest => "cc_test"
  | externalProject => "external_project"
  | shellScript => "shell_script"

def ofName? (name : String) : Option RuleType :=
  all.find? fun t => t.name = name

/-- Whether rules of the type are built by the C and C++ compilers. -/
def isCc : RuleType → Bool
  | ccLibrary | ccBinary | ccTest => true
  | externalProject | shellScript => false

def isLibrary (t : RuleType) : Bool := t = ccLibrary

/-- Whether rules of the type produce a program. -/
def isBinary (t : RuleType) : Bool := t = ccBinary || t = ccTest

/-- Whether rules of the type are run by the test target. -/
def isTest (t : RuleType) : Bool := t = ccTest

/-- Whether rules of the type are built by a script of their own. -/
def isExternal (t : RuleType) : Bool := t = externalProject || t = shellScript

/-- The capabilities as one number: library 1, program 2, test 4, script 8,
    compiler 16. -/
def bits (t : RuleType) : Nat :=
  (if t.isLibrary then 1 else 0) + (if t.isBinary then 2 else 0) + (if t.isTest then 4 else 0) +
    (if t.isExternal then 8 else 0) + (if t.isCc then 16 else 0)

end RuleType

/-- What a compiled rule declares. -/
structure CcAttributes where
  /-- Source patterns, relative to the package directory. -/
  srcs : List String := []
  headers : List String := []
  /-- Patterns of files that are neither source nor header. -/
  excludes : List String := []
  /-- Include directories, passed on to dependents. -/
  include_ : List String := []
  /-- Macro definitions, passed on to dependents. -/
  defines : List String := []
  /-- Flags for C sources of this rule. -/
  cflags : List String := []
  /-- Flags for C++ sources of this rule. -/
  cxxflags : List String := []
  /-- Linker flags, passed on to every rule that links this one. -/
  ldflags : List String := []
  /-- Arguments with which a test is run. -/
  args : List String := []
deriving DecidableEq, Repr, Inhabited

/-- What an external project declares. -/
structure ExternalAttributes where
  /-- The script that installs the project, run in the working folder. -/
  installScript : String
  /-- Files that the installation leaves in the working folder. -/
  exports : List String := []
deriving DecidableEq, Repr, Inhabited

/-- What a script rule declares. -/
structure ScriptAttributes where
  /-- The script, run in the package directory. -/
  script : String
  /-- Files that the script leaves in the package directory. -/
  outputs : List String := []
deriving DecidableEq, Repr, Inhabited

/-- The attributes of a rule, by its kind. -/
inductive Attributes where
  | cc (attributes : CcAttributes)
  | external (attributes : ExternalAttributes)
  | script (attributes : ScriptAttributes)
deriving DecidableEq, Repr, Inhabited

/-- A checked call of a rule type. -/
structure Declaration where
  type : RuleType
  name : String
  version : String
  /-- Dependencies as written. -/
  deps : List String
  attributes : Attributes
deriving DecidableEq, Repr, Inhabited

namespace Declaration

/-- The version of a rule that declares none. -/
def defaultVersion : String := "DEFAULT"

/-- The text of an attribute, if it is given; it may not be empty. -/
def text? (as : Arguments) (rule key : String) : Outcome (Option String) :=
  match as.get? key with
  | none => .ok none
  | some (.text s) =>
    if s.isEmpty then .error (.badAttribute rule key "must not be empty") else .ok (some s)
  | some other => .error (.badAttribute rule key ("must be a string, got " ++ other.kind))

/-- The text of an attribute that has to be given. -/
def text (as : Arguments) (rule key : String) : Outcome String := do
  match ← text? as rule key with
  | some s => .ok s
  | none => .error (.badAttribute rule key "is required")

/-- The version: a text or an integer, `defaultVersion` if there is none. -/
def versionOf (as : Arguments) (rule : String) : Outcome String := do
  match as.get? "version" with
  | some (.number n) => .ok (toString n)
  | _ => return (← text? as rule "version").getD defaultVersion

/-- The texts of an attribute: a list, or one text for a list of one. -/
def list (as : Arguments) (rule key : String) : Outcome (List String) :=
  match as.get? key with
  | none => .ok []
  | some (.list items) => .ok items
  | some (.text s) => .ok [s]
  | some other => .error (.badAttribute rule key ("must be a list, got " ++ other.kind))

/-- The attributes that a rule of the type can have besides `name`, `version` and
    `deps`. -/
def attributeNames : RuleType → List String
  | .externalProject => ["install_script", "exports"]
  | .shellScript => ["script", "outputs"]
  | .ccTest =>
    ["srcs", "headers", "excludes", "include", "defines", "cflags", "cxxflags", "ldflags", "args"]
  | .ccLibrary | .ccBinary =>
    ["srcs", "headers", "excludes", "include", "defines", "cflags", "cxxflags", "ldflags"]

/-- Every argument that a call of the type can have. -/
def knownNames (type : RuleType) : List String :=
  "name" :: "version" :: "deps" :: attributeNames type

def ccAttributes (as : Arguments) (rule : String) (type : RuleType) : Outcome CcAttributes := do
  return {
    srcs := ← list as rule "srcs"
    headers := ← list as rule "headers"
    excludes := ← list as rule "excludes"
    include_ := ← list as rule "include"
    defines := ← list as rule "defines"
    cflags := ← list as rule "cflags"
    cxxflags := ← list as rule "cxxflags"
    ldflags := ← list as rule "ldflags"
    args := ← if type.isTest then list as rule "args" else .ok [] }

def attributesOf (as : Arguments) (rule : String) : RuleType → Outcome Attributes
  | .externalProject => do
    return .external {
      installScript := ← text as rule "install_script"
      exports := ← list as rule "exports" }
  | .shellScript => do
    return .script {
      script := ← text as rule "script"
      outputs := ← list as rule "outputs" }
  | type => do return .cc (← ccAttributes as rule type)

def checkNames (as : Arguments) (rule : String) (type : RuleType) : Outcome Unit :=
  match as.names.find? (· ∉ knownNames type) with
  | some unknown => .error (.badAttribute rule unknown "is not recognised")
  | none => .ok ()

/-- Check a call in the declaration file `path`. Faults name the rule, or the
    rule type as long as the name of the rule is not known. -/
def ofCall (call : Call) (path : Path) : Outcome Declaration :=
  match RuleType.ofName? call.typeName with
  | none => .error (.unknownRuleType call.typeName path.text)
  | some type => do
    let name ← text call.arguments (path.text ++ ":" ++ call.typeName) "name"
    let rule := path.text ++ ":" ++ name
    let version ← versionOf call.arguments rule
    let deps ← list call.arguments rule "deps"
    let attributes ← attributesOf call.arguments rule type
    checkNames call.arguments rule type
    return { type, name, version, deps, attributes }

end Declaration

end Buildwright
