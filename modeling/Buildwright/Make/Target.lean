import Buildwright.Make.Text

/-!
# Targets of makefiles

A target says which files its recipe makes, from which other files, and after which
others. A makefile fragment is a header, a list of phony targets, and targets.

## Contents

* `Target`, `Fragment` and their texts.
-/

namespace Buildwright.Make

/-- The first line of everything that is generated. -/
def header : String := "# Generated by jk. Do not edit."

/-- How to make some files. -/
structure Target where
  outputs : List String
  /-- The files that outputs are made from. -/
  prerequisites : List String := []
  /-- The files that have to be there first, whatever their age. -/
  orderOnly : List String := []
  /-- The commands, in the language of recipes. -/
  recipe : List String := []
deriving DecidableEq, Repr, Inhabited

namespace Target

/-- A list of names behind a mark, or nothing if the list has no text. -/
def part (mark : String) (texts : List String) : String :=
  let text := names texts
  if text.isEmpty then "" else mark ++ text

/-- The lines of a target: its head, its recipe and an empty one. -/
def lines (t : Target) : List String :=
  (names t.outputs ++ ":" ++ part " " t.prerequisites ++ part " | " t.orderOnly) ::
    t.recipe.map ("\t" ++ ·) ++ [""]

def text (t : Target) : String :=
  String.join (t.lines.map (· ++ "\n"))

end Target

/-- The makefile of one rule. -/
structure Fragment where
  /-- The rule that the fragment is about. -/
  title : String
  /-- The targets that are no files. -/
  phony : List String
  targets : List Target
deriving DecidableEq, Repr, Inhabited

namespace Fragment

def text (f : Fragment) : String :=
  header ++ "\n# " ++ f.title ++ "\n\n.PHONY: " ++ names f.phony ++ "\n" ++
    String.join (f.targets.map Target.text)

end Fragment

end Buildwright.Make
