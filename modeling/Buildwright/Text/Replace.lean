/-!
# Replacing characters

One character is replaced by a text wherever it stands; all else is kept.
-/

namespace Buildwright.Text

/-- Every `c` of the text becomes `by_`. -/
def replaceChar (c : Char) (by_ : List Char) (cs : List Char) : List Char :=
  cs.flatMap fun x => if x = c then by_ else [x]

/-- `replaceChar` on strings. -/
def replace (s : String) (c : Char) (by_ : String) : String :=
  String.ofList (replaceChar c by_.toList s.toList)

@[simp] theorem replaceChar_nil (c : Char) (by_ : List Char) : replaceChar c by_ [] = [] := rfl

theorem replaceChar_append (c : Char) (by_ as bs : List Char) :
    replaceChar c by_ (as ++ bs) = replaceChar c by_ as ++ replaceChar c by_ bs := by
  simp [replaceChar]

end Buildwright.Text
