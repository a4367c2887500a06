import Buildwright.FileTree.Disk

/-!
# Generated files

A run collects its files before any of them is written: at most one for a path,
whichever way the path is spelled, in order of paths. Committing writes those that
differ from what the disk holds.

## Contents

* `GeneratedFiles` — the collected files;
* `GeneratedFiles.store` — one more file;
* `Writer` — a file while it is written;
* `GeneratedFiles.commit` — all files to a disk.
-/

namespace Buildwright

/-- Files by path, in order of paths. -/
structure GeneratedFiles where
  files : List (Path × String) := []
deriving DecidableEq, Repr, Inhabited

namespace GeneratedFiles

/-- The content of the file of a path. -/
def get? (g : GeneratedFiles) (path : Path) : Option String :=
  (g.files.find? fun f => f.1.Same path).map Prod.snd

def paths (g : GeneratedFiles) : List Path := g.files.map Prod.fst

/-- Put a file among others that are in order of paths. -/
def insert (path : Path) (content : String) : List (Path × String) → List (Path × String)
  | [] => [(path, content)]
  | f :: rest =>
    if path.lt f.1 then (path, content) :: f :: rest else f :: insert path content rest

/-- Add a file. A path can be used once. -/
def store (g : GeneratedFiles) (path : Path) (content : String) : Outcome GeneratedFiles :=
  if (g.get? path).isSome then .error (.internal (path.text ++ " was generated more than once"))
  else .ok ⟨insert path content g.files⟩

/-- Add files until one is a fault or cannot be added. -/
def storeAll (g : GeneratedFiles) : List (Outcome (Path × String)) → GeneratedFiles × Outcome Unit
  | [] => (g, .ok ())
  | .error fault :: _ => (g, .error fault)
  | .ok (path, content) :: rest =>
    match g.store path content with
    | .ok g => g.storeAll rest
    | .error fault => (g, .error fault)

end GeneratedFiles

/-- A file while it is written. -/
structure Writer where
  path : Path
  /-- What has been written and not stored. -/
  buffer : String := ""
deriving DecidableEq, Repr, Inhabited

namespace Writer

def write (w : Writer) (text : String) : Writer :=
  { w with buffer := w.buffer ++ text }

/-- Write a text and a line feed. -/
def writeLine (w : Writer) (text : String) : Writer :=
  (w.write text).write "\n"

/-- Store what has been written. Whether or not this succeeds, nothing is left to be
    stored. -/
def flush (w : Writer) (g : GeneratedFiles) : Writer × Outcome GeneratedFiles :=
  ({ w with buffer := "" }, g.store w.path w.buffer)

end Writer

/-- What a commit did. -/
structure CommitSummary where
  /-- The number of files that were created or replaced. -/
  written : Nat := 0
  /-- The number of files that were as they should be. -/
  unchanged : Nat := 0
deriving DecidableEq, Repr, Inhabited

namespace GeneratedFiles

/-- The directory that a file is put into. -/
def directoryOf (target : Path) : Path :=
  match target.parent? with
  | some p => if p.text.isEmpty then ⟨"."⟩ else p
  | none => ⟨"."⟩

/-- The path of the file that a content is written to before it takes its place in a
    directory. -/
def scratchIn (d : Disk) (directory : Path) : Path :=
  ((Disk.pathOf d.current).join directory).join ⟨".tmpABCDEF"⟩

/-- Put a file in its place; the directories around it are created, and stay if the file is
    refused. There has to be room for the path of a scratch file. -/
def place (d : Disk) (target : Path) (content : String) : Disk × Outcome Unit :=
  let directory := directoryOf target
  match d.createDirectories directory with
  | (d, .error refusal) => (d, .error (.io directory.text refusal))
  | (d, .ok ()) =>
    match d.locate (scratchIn d directory) with
    | .error refusal => (d, .error (.io directory.text refusal))
    | .ok _ =>
      match d.write target content.toUTF8 with
      | .error refusal => (d, .error (.io target.text refusal))
      | .ok d => (d, .ok ())

def holds (d : Disk) (target : Path) (content : String) : Bool :=
  match d.read target with
  | .ok bytes => bytes.data = content.toUTF8.data
  | .error _ => false

/-- Write files below `root`, one after the other. A file that is as it should be is not
    touched. What was written before a fault stays. -/
def commitFiles (root : Path) :
    List (Path × String) → Disk → CommitSummary → Disk × Outcome CommitSummary
  | [], d, s => (d, .ok s)
  | (path, content) :: rest, d, s =>
    let target := root.join path
    if holds d target content then commitFiles root rest d { s with unchanged := s.unchanged + 1 }
    else
      match place d target content with
      | (d, .error fault) => (d, .error fault)
      | (d, .ok ()) => commitFiles root rest d { s with written := s.written + 1 }

/-- Write all files below `root`. -/
def commit (g : GeneratedFiles) (root : Path) (d : Disk) : Disk × Outcome CommitSummary :=
  commitFiles root g.files d {}

end GeneratedFiles

end Buildwright
