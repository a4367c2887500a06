import Buildwright.DeclarationFile
import Buildwright.Glob.Expand

/-!
# Workspaces

A workspace is what a run can ask about the files of a project: the calls of a
declaration file, and the files that match a pattern in a directory. Both are
functions, so one run always gets the same answer to the same question.

## Contents

* `ExpandFault`, `Workspace`;
* `Disk.workspace` — the workspace of a disk.
-/

namespace Buildwright

/-- Why a pattern has no expansion. -/
inductive ExpandFault where
  | invalid (problem : Glob.Problem)
  | unreadable (path reason : String)
  /-- A file that matches has a name that is no text. -/
  | notText
  /-- The expansion broke off with a message. -/
  | panicked (message : String)
deriving DecidableEq, Repr

namespace ExpandFault

def message : ExpandFault → String
  | invalid problem => "invalid pattern: " ++ problem.message
  | unreadable path reason => "failed to read " ++ path ++ ": " ++ reason
  | notText => "glob matched a non-UTF-8 path"
  | panicked message => message

end ExpandFault

/-- What a run can ask about files. -/
structure Workspace where
  evaluate : Path → Except Failure (List Call)
  /-- The files that match a pattern in a directory, relative to it. -/
  expand : String → Path → Except ExpandFault (List String)
  /-- A number of packages that no run can exceed. -/
  capacity : Nat

namespace Disk

def evaluate (d : Disk) (file : Path) : Except Failure (List Call) :=
  match d.readText file with
  | .error refusal => .error (.fault (.io file.text refusal))
  | .ok text =>
    match DeclarationFile.read file text with
    | .ok calls => .ok calls
    | .error fault => .error (.fault fault)

/-- The workspace of a disk. A directory belongs to at most five packages: one of the
    project, and four of the builtin tree, since what follows the mark of a key can begin
    with a name, with `.`, with `..` or with a slash. -/
def workspace (d : Disk) : Workspace where
  evaluate := d.evaluate
  expand pattern base :=
    match Glob.expand d pattern base with
    | .ok files => .ok files
    | .error problem => .error (.invalid problem)
  capacity := 5 * (d.tree.nodes.length + 1)

end Disk

end Buildwright
