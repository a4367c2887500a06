import Buildwright.Fault
import Buildwright.FileTree.Basic
import Buildwright.Path.Basic

/-!
# Disks

A disk is a file tree with a current directory. A path leads to a place name by
name, from the root or from the current directory; every name on the way has to be a
directory, and `..` leads back to the directory around it.

## Contents

* `Disk.locate` — from a path to its place;
* `Disk.read`, `Disk.readText`, `Disk.isFile`, `Disk.isDirectory`, `Disk.exists_`;
* `Disk.createDirectories`, `Disk.write`, `Disk.delete` — the changes. Those that take
  several steps give the disk back with what was done before a refusal;
* `Disk.canonical` — the path of a place.
-/

namespace Buildwright

/-- A file tree with a current directory. -/
structure Disk where
  tree : FileTree
  current : Place
deriving DecidableEq, Inhabited

namespace Disk

/-- The number of bytes that a name may have. -/
def nameLimit : Nat := 255

/-- The number of bytes that a path may have. -/
def pathLimit : Nat := 4095

/-- Follow names from a place. -/
def walk (t : FileTree) : Place → List String → Except Refusal Place
  | place, [] => .ok place
  | place, name :: rest =>
    match t.find? place with
    | none => .error .notFound
    | some (.file _) => .error .notADirectory
    | some .directory =>
      if nameLimit < name.utf8ByteSize then .error .invalidName
      else walk t (if name = ".." then place.dropLast else place ++ [name]) rest

/-- The names of a path between its separators. -/
def words (p : Path) : List String :=
  (p.text.toList.splitOn '/').map String.ofList

/-- Whether the path says that it leads to a directory. -/
def wantsDirectory (p : Path) : Bool :=
  match (words p).getLast? with
  | some w => w = "" || w = "." || w = ".."
  | none => false

/-- The place that a path leads to, whether or not there is something. A path with a NUL
    leads nowhere. -/
def locate (d : Disk) (p : Path) : Except Refusal Place :=
  if p.text.isEmpty then .error .notFound
  else if p.text.contains '\x00' then .error .invalidInput
  else if pathLimit < p.text.utf8ByteSize then .error .invalidName
  else
    walk d.tree (if p.isAbsolute then [] else d.current)
      ((words p).filter fun w => w ≠ "" && w ≠ ".")

/-- What a path leads to, with its place. -/
def entry (d : Disk) (p : Path) : Except Refusal (Place × FileTree.Node) := do
  let place ← d.locate p
  match d.tree.find? place with
  | none => .error .notFound
  | some .directory => .ok (place, .directory)
  | some (.file content) =>
    if wantsDirectory p then .error .notADirectory else .ok (place, .file content)

/-- Whether a path leads to something. -/
def exists_ (d : Disk) (p : Path) : Bool :=
  match d.entry p with
  | .ok _ => true
  | .error _ => false

def isFile (d : Disk) (p : Path) : Bool :=
  match d.entry p with
  | .ok (_, .file _) => true
  | _ => false

def isDirectory (d : Disk) (p : Path) : Bool :=
  match d.entry p with
  | .ok (_, .directory) => true
  | _ => false

def read (d : Disk) (p : Path) : Except Refusal ByteArray :=
  match d.entry p with
  | .ok (_, .file content) => .ok content
  | .ok (_, .directory) => .error .isADirectory
  | .error r => .error r

def readText (d : Disk) (p : Path) : Except Refusal String := do
  let content ← d.read p
  match String.fromUTF8? content with
  | some text => .ok text
  | none => .error .invalidData

/-- Create one directory in a directory that exists. -/
def createDirectory (d : Disk) (p : Path) : Except Refusal Disk := do
  let place ← d.locate p
  match d.tree.find? place with
  | some _ => .error .alreadyExists
  | none =>
    match d.tree.find? place.dropLast with
    | some .directory => .ok { d with tree := d.tree.put place .directory }
    | some (.file _) => .error .notADirectory
    | none => .error .notFound

/-- Create one directory, if it is not there. -/
def ensureDirectory (d : Disk) (p : Path) : Except Refusal Disk :=
  match d.createDirectory p with
  | .ok d => .ok d
  | .error r => if d.isDirectory p then .ok d else .error r

/-- The disk after a single change; a change that is refused leaves it as it is. -/
def after (d : Disk) : Except Refusal Disk → Disk × Except Refusal Unit
  | .ok changed => (changed, .ok ())
  | .error r => (d, .error r)

/-- Create a directory with those around it, at most `n` of them. -/
def createDirectoriesUpTo : Nat → Disk → Path → Disk × Except Refusal Unit
  | 0, d, p => d.after (d.ensureDirectory p)
  | n + 1, d, p =>
    if p.text.isEmpty then (d, .ok ())
    else
      match d.ensureDirectory p, p.parent? with
      | .error .notFound, some around =>
        match createDirectoriesUpTo n d around with
        | (d, .ok ()) => d.after (d.ensureDirectory p)
        | (d, .error r) => (d, .error r)
      | result, _ => d.after result

/-- Create a directory with those around it. Directories that were created before one is
    refused stay. -/
def createDirectories (d : Disk) (p : Path) : Disk × Except Refusal Unit :=
  createDirectoriesUpTo (p.components.length + 1) d p

def lastWord? (p : Path) : Option String :=
  ((words p).filter (· ≠ "")).getLast?

/-- Whether the path does not call what it leads to by its name. -/
def isNameless (p : Path) : Bool :=
  match lastWord? p with
  | some w => w = "." || w = ".."
  | none => true

/-- Put a file in the place of what a path leads to, in a directory that exists. A
    directory that is not called by its name is in use. -/
def write (d : Disk) (p : Path) (content : ByteArray) : Except Refusal Disk := do
  if isNameless p then
    let _ ← d.entry p
    .error .busy
  else
    let place ← d.locate p
    if wantsDirectory p then .error .notADirectory
    else
      match d.tree.find? place, d.tree.find? place.dropLast with
      | some .directory, _ => .error .isADirectory
      | _, some .directory => .ok { d with tree := d.tree.put place (.file content) }
      | _, some (.file _) => .error .notADirectory
      | _, none => .error .notFound

/-- Delete a file, or a directory with all below it. A directory that is not called by its
    name is emptied only: `.` cannot be deleted, and `..` only if the way to it is gone. -/
def delete (d : Disk) (p : Path) : Disk × Except Refusal Unit :=
  match d.entry p with
  | .error r => (d, .error r)
  | .ok (place, .file _) => ({ d with tree := d.tree.removeBelow place }, .ok ())
  | .ok (place, .directory) =>
    let emptied := { d with tree := d.tree.clear place }
    match lastWord? p with
    | some "." => (emptied, .error .invalidInput)
    | some ".." => (emptied, if emptied.exists_ p then .error .directoryNotEmpty else .ok ())
    | _ => ({ d with tree := d.tree.removeBelow place }, .ok ())

def pathOf (place : Place) : Path :=
  ⟨"/" ++ "/".intercalate place⟩

/-- The path of the place that a path leads to. -/
def canonical (d : Disk) (p : Path) : Except Refusal Path := do
  let (place, _) ← d.entry p
  return pathOf place

end Disk

end Buildwright
