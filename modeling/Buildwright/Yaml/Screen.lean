import Buildwright.Text.Blank

/-!
# Texts that are refused as a whole

Some texts are refused before they are read: those in which a square bracket seems to be
closed once too often, and those in which a word that a comment ends is continued on the
next line without indentation. The test goes by lines and does not know what is quoted.

## Contents

* `isWordLine`, `isContinuation` — the two lines of a word that goes on;
* `isRefused` — the test.
-/

namespace Buildwright.Yaml.Screen

/-- The lines of a text, without the carriage returns that end them. -/
def lines (text : String) : List (List Char) :=
  (Text.lines text.toList).map fun line =>
    if line.getLast? = some '\r' then line.dropLast else line

/-- Whether a line is a word with a mark `#` behind it: neither the entry of a
    collection nor a collection between brackets. -/
def isWordLine (line : List Char) : Bool :=
  let word := Text.trim (line.takeWhile (· ≠ '#'))
  line.contains '#' && word ≠ [] &&
    !word.any (fun c => c = ':' || c = '[' || c = ']' || c = '\x7b' || c = '\x7d') &&
    word.head? ≠ some '-' && word.head? ≠ some '?'

/-- Whether a line begins at the margin and is neither an entry, nor a comment, nor the
    mark of a document. -/
def isContinuation (line : List Char) : Bool :=
  line.head?.any (fun c => !Text.isBlank c && c ≠ '#') && !line.contains ':' &&
    !"- ".toList.isPrefixOf line && !"? ".toList.isPrefixOf line &&
    line ≠ "---".toList && line ≠ "...".toList

/-- Whether a word line is followed by a line that continues it. -/
def hasBrokenWord : List (List Char) → Bool
  | first :: second :: rest =>
    (isWordLine first && isContinuation second) || hasBrokenWord (second :: rest)
  | _ => false

/-- Whether a part of a text begins with `] ]`. -/
def hasDoubleClose : List Char → Bool
  | [] => false
  | c :: rest => "] ]".toList.isPrefixOf (c :: rest) || hasDoubleClose rest

/-- Whether a text is refused as a whole. -/
def isRefused (text : String) : Bool :=
  hasDoubleClose text.toList || hasBrokenWord (lines text)

end Buildwright.Yaml.Screen
