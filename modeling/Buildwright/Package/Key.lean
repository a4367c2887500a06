/-!
# Package keys

A package is known by its directory relative to the project root, a list of names
joined by `/`. Packages of the builtin tree have keys that begin with `##`.

## Contents

* `Key.segments` — the names of a package path, with `.` and `..` steps taken;
* `Key.normalize` — the package path spelled with these names;
* `Key.isBuiltin` — keys of the builtin tree.
-/

namespace Buildwright.Package.Key

/-- The mark of the builtin tree. -/
def builtinMark : String := "##"

/-- Take one step from the names walked so far, the last one first. A `..` at the
    top stays there. -/
def step (walked : List (List Char)) (segment : List Char) : List (List Char) :=
  if segment = [] ∨ segment = ['.'] then walked
  else if segment = ['.', '.'] then walked.drop 1
  else segment :: walked

/-- The names of a package path after all its steps. -/
def segments (path : List Char) : List (List Char) :=
  ((path.splitOn '/').foldl step []).reverse

/-- A package path without empty, `.` and `..` segments. -/
def normalize (path : String) : String :=
  String.ofList (['/'].intercalate (segments path.toList))

/-- Whether a key belongs to the builtin tree. -/
def isBuiltin (key : String) : Bool :=
  ['#', '#'].isPrefixOf key.toList

end Buildwright.Package.Key
