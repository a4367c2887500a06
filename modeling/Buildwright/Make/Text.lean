import Buildwright.Path.Basic
import Buildwright.Shell.Word
import Buildwright.Text.Blank
import Buildwright.Text.Replace

/-!
# Texts in makefiles

A makefile has two languages: names of files and targets, where blanks, colons and
hashes are written after a backslash, and recipes, which are read by a shell after
every `$$` has become `$`.

## Contents

* `name`, `names` — one name, a list of names;
* `word`, `line` — one word of a recipe, a command;
* `script` — a script of several lines as one command.
-/

namespace Buildwright.Make

/-- A character of a name as it is written. -/
def nameChar (c : Char) : List Char :=
  if c = '$' then ['$', '$']
  else if c = ' ' ∨ c = ':' ∨ c = '#' then ['\\', c]
  else [c]

/-- A name as it is written. -/
def name (text : String) : String :=
  String.ofList (text.toList.flatMap nameChar)

/-- A list of names, with blanks between them. -/
def names (texts : List String) : String :=
  " ".intercalate (texts.map name)

/-- A text with every `$` doubled. -/
def doubleDollars (cs : List Char) : List Char :=
  Text.replaceChar '$' ['$', '$'] cs

/-- A word of a recipe. -/
def word (text : String) : String :=
  String.ofList (doubleDollars (Shell.quote text.toList))

/-- A command of a recipe. -/
def line (words : List String) : String :=
  " ".intercalate (words.map word)

/-- The lines of a script that are not blank, as one command that stops at the first
    failure. -/
def script (text : String) : String :=
  let lines := ((Text.lines text.toList).map Text.trim).filter (· ≠ [])
  String.ofList (doubleDollars (" && ".intercalate (lines.map String.ofList)).toList)

/-- The command that creates a directory, without being shown. -/
def makeDirectory (dir : Path) : String :=
  "@mkdir -p " ++ word dir.text

/-- The directory of a file; the current one if the path names none. -/
def directoryOf (file : Path) : Path :=
  (file.parent?).getD ⟨"."⟩

end Buildwright.Make
