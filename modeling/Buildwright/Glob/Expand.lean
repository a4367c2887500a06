import Buildwright.FileTree.Disk
import Buildwright.Glob.Pattern
import Buildwright.Text.Replace

/-!
# Expansion of glob patterns

A pattern is matched against the files of a disk name by name, from left to right. A
name without wildcards is followed without looking at the directory; `**` stands for
the names of any number of directories below.

## Contents

* `parts` — the compiled names of a pattern;
* `follow` — the paths that names lead to from a path;
* `expand` — the files below a directory that match, relative to it.
-/

namespace Buildwright.Glob

/-- The texts between the separators of a pattern. A separator at its end ends the
    last one. -/
def names (pattern : List Char) : List (List Char) :=
  let words := pattern.splitOn '/'
  if words.getLast? = some [] then words.dropLast else words

/-- The compiled names of a pattern without the separator at its front. The pattern as a
    whole has to compile, and so has every name. -/
def parts (pattern : List Char) : Except Problem (List (List Token)) := do
  let _ ← compile pattern
  let relative := if pattern.head? = some '/' then pattern.drop 1 else pattern
  (names relative).mapM compile

/-- The current directory, where relative patterns begin. -/
def here : Path := ⟨"."⟩

/-- Continue a path by a name; nothing stands for the current directory. -/
def step (p : Path) (name : String) : Path :=
  if p = here then ⟨name⟩ else p.join ⟨name⟩

/-- The names in the directory that a path leads to. -/
def children (d : Disk) (p : Path) : List String :=
  match d.entry p with
  | .ok (place, .directory) => d.tree.children place
  | _ => []

/-- The paths of everything below the directory that a path leads to. -/
def below (d : Disk) (p : Path) : List Path :=
  match d.entry p with
  | .ok (place, .directory) => (d.tree.below place).map fun n => n.1.foldl step p
  | _ => []

/-- Whether tokens match the last name of a path. -/
def acceptsLast (tokens : List Token) (p : Path) : Bool :=
  match p.fileName? with
  | some name => accepts tokens name.toList
  | none => false

/-- The directories `.` and `..`, which are matched only by patterns that begin with a
    dot. -/
def specials (tokens : List Token) : List String :=
  if tokens.head? = some (.char '.') then
    [".", ".."].filter fun s => accepts tokens s.toList
  else []

/-- The paths that one name without `**` leads to. -/
def stepAll (d : Disk) (tokens : List Token) (p : Path) : List Path :=
  match literal? tokens with
  | some name =>
    let q := step p (String.ofList name)
    if name = ['.'] ∨ name = ['.', '.'] then if d.isDirectory p then [q] else []
    else if d.exists_ q then [q] else []
  | none =>
    if d.isDirectory p then
      ((children d p).filter fun name => accepts tokens name.toList).map (step p) ++
        (specials tokens).map fun s => p.join ⟨s⟩
    else []

/-- The paths that names lead to from a path. -/
def follow (d : Disk) : List (List Token) → Path → List Path
  | [], p => [p]
  | tokens :: rest, p =>
    if isRecursive tokens then
      match _h : rest.dropWhile isRecursive with
      | [] => (below d p).filter d.isDirectory
      | next :: more => ((below d p).filter (acceptsLast next)).flatMap (follow d more)
    else (stepAll d tokens p).flatMap (follow d rest)
termination_by parts => parts.length
decreasing_by
  · have hle := (List.dropWhile_suffix isRecursive (l := rest)).length_le
    rw [_h] at hle
    simp only [List.length_cons] at hle ⊢
    omega
  · simp

/-- The pattern that stands for `pattern` below the directory `base`. Backslashes in it
    are separators. -/
def fullPattern (pattern : String) (base : Path) : List Char :=
  escape base.text.toList ++ '/' :: Text.replaceChar '\\' ['/'] pattern.toList

/-- The path of a file as seen from `base`. -/
def relative (base p : Path) : String :=
  Text.replace ((p.stripPrefix? base).getD p).text '\\' "/"

/-- The files that match a pattern below the directory `base`, relative to it, in order
    and each once. A pattern that ends in a separator matches no files. -/
def expand (d : Disk) (pattern : String) (base : Path) : Except Problem (List String) := do
  let full := fullPattern pattern base
  let parts ← parts full
  let start : Path := if full.head? = some '/' then ⟨"/"⟩ else here
  let found := if full.getLast? = some '/' then [] else follow d parts start
  let files := (found.filter d.isFile).map (relative base)
  return (files.mergeSort (· ≤ ·)).eraseDups

end Buildwright.Glob
