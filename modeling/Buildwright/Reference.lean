import Buildwright.Fault
import Buildwright.Package.Key
import Buildwright.Text.Replace

/-!
# Rule references

A dependency is declared as a text that names a rule:

    //pkg:rule    the package `pkg` below the project root
    ##pkg:rule    the package `pkg` of the builtin tree
    :rule         the declaring package
    pkg:rule      the package `pkg` below the directory of the declaring package

The package may be followed by `/BUILD`, and the rule by `@version`. A colon
after a backslash belongs to the package.

## Contents

* `Reference.parse` and `Reference.text` — reader and printer;
* `Reference.resolve` — the key of the package that a reference names.
-/

namespace Buildwright

/-- Where the package of a reference is looked up. -/
inductive Position where
  /-- Below the project root. -/
  | absolute
  /-- Below the directory of the declaring package. -/
  | relative
  /-- In the builtin tree. -/
  | builtin
  /-- In the declaring package itself. -/
  | this
deriving DecidableEq, Repr, Inhabited

/-- A parsed dependency. -/
structure Reference where
  position : Position
  /-- The package path; none for the declaring package itself. -/
  package : Option String
  rule : String
  version : Option String
deriving DecidableEq, Repr, Inhabited

namespace Reference

/-- Why a text is no reference. -/
inductive Problem where
  | empty
  | noSeparator
  | emptyRule
  | emptyVersion
deriving DecidableEq, Repr

def Problem.text : Problem → String
  | empty => "identifier is empty"
  | noSeparator => "missing ':' separator"
  | emptyRule => "rule name is empty"
  | emptyVersion => "version after '@' is empty"

/-- Split a text into its position mark and the rest. A leading `:` is no mark:
    it separates an absent package from the rule. -/
def splitPosition : List Char → Position × List Char
  | '/' :: '/' :: rest => (.absolute, rest)
  | '#' :: '#' :: rest => (.builtin, rest)
  | ':' :: rest => (.this, ':' :: rest)
  | rest => (.relative, rest)

/-- Split a text at the first colon that no backslash precedes. Before it, a
    backslash and a colon stand for a colon. -/
def splitPackage? : List Char → Option (List Char × List Char)
  | [] => none
  | '\\' :: ':' :: rest => (splitPackage? rest).map fun p => (':' :: p.1, p.2)
  | ':' :: rest => some ([], rest)
  | c :: rest => (splitPackage? rest).map fun p => (c :: p.1, p.2)

/-- Split a rule at its first `@`. -/
def splitVersion : List Char → List Char × Option (List Char)
  | [] => ([], none)
  | '@' :: rest => ([], some rest)
  | c :: rest => ((c :: (splitVersion rest).1), (splitVersion rest).2)

/-- The package path without a trailing declaration file name. -/
def stripBuild (package : List Char) : List Char :=
  if package = ['B', 'U', 'I', 'L', 'D'] then []
  else if ['/', 'B', 'U', 'I', 'L', 'D'].isSuffixOf package then
    package.take (package.length - 6)
  else package

def read (cs : List Char) : Except Problem Reference :=
  if cs = [] then .error .empty
  else
    let (position, rest) := splitPosition cs
    match splitPackage? rest with
    | none => .error .noSeparator
    | some (package, rulePart) =>
      let (rule, version) := splitVersion rulePart
      if rule = [] then .error .emptyRule
      else if version = some [] then .error .emptyVersion
      else
        .ok {
          position
          package :=
            if position = .this then none else some (String.ofList (stripBuild package))
          rule := String.ofList rule
          version := version.map String.ofList }

/-- Read a reference from the text of a declaration. -/
def parse (input : String) : Outcome Reference :=
  match read input.toList with
  | .ok reference => .ok reference
  | .error problem => .error (.reference input problem.text)

/-- The mark that a position is written with. -/
def mark : Position → String
  | .absolute => "//"
  | .builtin => "##"
  | .relative | .this => ""

/-- The package path with a backslash before every colon. -/
def escapeColons (package : String) : String :=
  Text.replace package ':' "\\:"

/-- The reference as it is written in a declaration. -/
def text (r : Reference) : String :=
  mark r.position ++ escapeColons (r.package.getD "") ++ ":" ++ r.rule ++
    (match r.version with
     | some version => "@" ++ version
     | none => "")

/-- The key of the package that a reference names when it is declared in the
    package `current`. -/
def resolve (r : Reference) (current : String) : String :=
  let package := r.package.getD ""
  match r.position with
  | .this => current
  | .absolute => Package.Key.normalize package
  | .builtin => Package.Key.builtinMark ++ Package.Key.normalize package
  | .relative => Package.Key.normalize (current ++ "/" ++ package)

end Reference

end Buildwright
