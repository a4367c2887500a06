import Buildwright.Fault
import Buildwright.Package.Key
import Buildwright.Path.Basic

/-!
# Layout of a project

Where packages lie on disk and where outputs go. Paths in outputs are relative to
the project root; files are read below the project root itself.

## Contents

* `Layout.packageDir`, `Layout.fileOf?` — from a package key to its directory and
  its declaration file;
* `Layout.packageOf` — from a declaration file to the key of its package;
* `Layout.relativize` — a path as seen from the project root.
-/

namespace Buildwright

/-- The directories of a project. -/
structure Layout where
  projectRoot : Path
  /-- The output directory, relative to the project root. -/
  buildRoot : Path
  /-- The name of declaration files. -/
  buildFile : String
  /-- The directory of the builtin tree. -/
  builtinRoot : Option Path
deriving DecidableEq, Repr, Inhabited

namespace Layout

/-- The directory of a package, relative to the project root. A builtin package
    lies below the builtin root; if there is none, its key alone is its directory. -/
def packageDir (l : Layout) (key : String) : Path :=
  if Package.Key.isBuiltin key then
    let rest : Path := ⟨String.ofList (key.toList.drop 2)⟩
    match l.builtinRoot with
    | some root => root.join rest
    | none => rest
  else ⟨key⟩

def packageDirOnDisk (l : Layout) (key : String) : Path :=
  l.projectRoot.join (l.packageDir key)

/-- The declaration file of a package; none for a builtin package without a
    builtin root. -/
def fileOf? (l : Layout) (key : String) : Option Path :=
  if Package.Key.isBuiltin key && l.builtinRoot.isNone then none
  else some ((l.packageDirOnDisk key).join ⟨l.buildFile⟩)

/-- A path with slashes in place of backslashes. -/
def slashed (text : String) : String :=
  String.ofList (text.toList.map fun c => if c = '\\' then '/' else c)

/-- The key and the full path of a declaration file that is given relative to the
    project root, or absolute below it. -/
def packageOf (l : Layout) (file : Path) : Outcome (String × Path) :=
  let full := if file.isAbsolute then file else l.projectRoot.join file
  match full.stripPrefix? l.projectRoot with
  | none => .error (.config (.outsideProject file.text l.projectRoot.text))
  | some relative =>
    let key :=
      match relative.parent? with
      | some dir => Package.Key.normalize (slashed dir.text)
      | none => ""
    .ok (key, full)

/-- A path below the project root, relative to it; other paths as they are. -/
def relativize (l : Layout) (p : Path) : Path :=
  (p.stripPrefix? l.projectRoot).getD p

end Layout

end Buildwright
