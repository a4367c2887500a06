import Buildwright.Rule.Declaration
import Buildwright.Text.Replace

/-!
# Rules

A rule is a declaration in its package, with the number under which the graph
knows it. Its *full name* is `package/name@version`; the *quoted* form, with `@@`
in place of every `/`, names its make targets and its working folder.
-/

namespace Buildwright

/-- Rules are numbered in the order in which they are loaded. -/
abbrev RuleId := Nat

/-- A declared rule. -/
structure Rule where
  id : RuleId
  package : String
  declaration : Declaration
deriving DecidableEq, Repr, Inhabited

namespace Rule

def type (r : Rule) : RuleType := r.declaration.type

/-- The name within the package. -/
def name (r : Rule) : String := r.declaration.name

def version (r : Rule) : String := r.declaration.version

/-- Dependencies as written. -/
def deps (r : Rule) : List String := r.declaration.deps

def cc? (r : Rule) : Option CcAttributes :=
  match r.declaration.attributes with
  | .cc attributes => some attributes
  | _ => none

/-- `package/name`, or the name alone in the top package. -/
def plainName (r : Rule) : String :=
  if r.package.isEmpty then r.name else r.package ++ "/" ++ r.name

/-- `package/name@version`. -/
def fullName (r : Rule) : String :=
  r.plainName ++ "@" ++ r.version

/-- A name with `@@` in place of every `/`. -/
def quoteName (name : String) : String :=
  Text.replace name '/' "@@"

/-- The full name as a file or target name. -/
def quotedName (r : Rule) : String :=
  quoteName r.fullName

/-- The folder below the build root that receives the outputs of the rule. -/
def workingFolder (r : Rule) (buildRoot : Path) : Path :=
  buildRoot.join ⟨r.quotedName⟩

end Rule

end Buildwright
