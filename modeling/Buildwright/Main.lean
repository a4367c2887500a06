import Buildwright.Run

/-!
# The program

The program reads the files around the current directory, carries out what its command
line asks for, and writes back what has changed.

## Contents

* `Terminal.snapshot` — the files at and below a directory as nodes of a disk;
* `Terminal.apply` — the changes from one disk to another;
* `main` — the program.
-/

namespace Buildwright.Terminal

open CommandLine

/-- The variables that can hold settings. -/
def variableNames : List String :=
  ["JK_BUILD_ROOT", "JK_BUILD_TYPES", "JK_FORMATS", "JK_JOBS", "JK_BUILD_FILE",
   "JK_BUILTIN_ROOT", "JK_TOOLCHAIN", "JK_TOOLCHAIN__CC", "JK_TOOLCHAIN__CXX",
   "JK_TOOLCHAIN__AR"]

/-- The variables of the environment that are set. -/
def environment : IO (List (String × String)) :=
  variableNames.filterMapM fun name => do
    return (← IO.getEnv name).map (name, ·)

/-- The place of an absolute path. -/
def placeOf (path : String) : Place :=
  (path.splitOn "/").filter (· ≠ "")

/-- The directories from the root to a place, itself included. -/
def directoriesTo (place : Place) : List (Place × FileTree.Node) :=
  (List.range (place.length + 1)).map fun n => (place.take n, .directory)

/-- The nodes below a directory. -/
partial def snapshot (place : Place) : IO (List (Place × FileTree.Node)) := do
  let entries ← (← IO.FS.realPath (Disk.pathOf place).text).readDir
  let nodes ← entries.toList.mapM fun entry => do
    let here := place ++ [entry.fileName]
    if ← entry.path.isDir then
      return (here, .directory) :: (← snapshot here)
    else
      return [(here, .file (← IO.FS.readBinFile entry.path))]
  return nodes.flatten

/-- The disk around the current directory and another one. -/
def diskAround (directory : Option Path) : IO Disk := do
  let current := placeOf (← IO.currentDir).toString
  let base :=
    match directory with
    | some d => (Disk.pathOf current).join d
    | none => Disk.pathOf current
  let other ← try IO.FS.realPath base.text catch _ => pure base.text
  let places := [current, placeOf other.toString].eraseDups
  let nodes ← places.mapM fun place => do
    let below ← try snapshot place catch _ => pure []
    return directoriesTo place ++ below
  return {
    tree := nodes.flatten.foldl (fun t n => t.put n.1 n.2) {}
    current }

/-- Write what differs between two disks. -/
def apply (before after : Disk) : IO Unit := do
  for (place, node) in before.tree.nodes do
    if (after.tree.find? place).isNone then
      let path := (Disk.pathOf place).text
      try
        match node with
        | .file _ => IO.FS.removeFile path
        | .directory => IO.FS.removeDirAll path
      catch _ => pure ()
  for (place, node) in after.tree.nodes.reverse do
    if before.tree.find? place ≠ some node then
      let path := (Disk.pathOf place).text
      match node with
      | .directory => IO.FS.createDirAll path
      | .file content => do
        IO.FS.createDirAll (Disk.pathOf place.dropLast).text
        IO.FS.writeBinFile path content

end Buildwright.Terminal

open Buildwright Buildwright.Terminal in
/-- Carry out the command line. -/
def main (words : List String) : IO UInt32 := do
  match CommandLine.Invocation.ofWords words with
  | .error usage =>
    IO.eprintln (if usage = .version then Run.versionText else "usage: jk [OPTIONS] [COMMAND]")
    return usage.exitCode.toUInt32
  | .ok invocation =>
    let before ← diskAround invocation.directory
    let run := invocation.run (← environment) before
    apply before run.disk
    IO.print run.printed
    match run.result with
    | .ok () => return 0
    | .error failure =>
      IO.eprintln (failure.activity.text ++ ": " ++ failure.cause.text)
      return 1
