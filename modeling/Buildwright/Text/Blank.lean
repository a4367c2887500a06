/-!
# Blank characters and lines

The blank characters are those of the Unicode property `White_Space`.

## Contents

* `isBlank` — the property;
* `trim` — a text without the blanks at its ends;
* `isBlankText` — texts of nothing but blanks;
* `lines` — the lines of a text.
-/

namespace Buildwright.Text

/-- Whether a character is white space. -/
def isBlank (c : Char) : Bool :=
  let n := c.toNat
  (0x9 ≤ n && n ≤ 0xD) || n = 0x20 || n = 0x85 || n = 0xA0 || n = 0x1680 ||
    (0x2000 ≤ n && n ≤ 0x200A) || n = 0x2028 || n = 0x2029 || n = 0x202F ||
    n = 0x205F || n = 0x3000

/-- The text without leading and trailing blanks. -/
def trim (cs : List Char) : List Char :=
  ((cs.dropWhile isBlank).reverse.dropWhile isBlank).reverse

/-- Whether a text has no character that is not blank. -/
def isBlankText (s : String) : Bool :=
  s.toList.all isBlank

/-- The lines of a text; line feeds separate them. -/
def lines (cs : List Char) : List (List Char) :=
  cs.splitOn '\n'

/-- Every blank of the core library's class is one. -/
theorem isBlank_of_isWhitespace {c : Char} (h : c.isWhitespace) : isBlank c := by
  simp only [Char.isWhitespace, Bool.or_eq_true, decide_eq_true_eq] at h
  rcases h with ((rfl | rfl) | rfl) | rfl <;> decide

end Buildwright.Text
