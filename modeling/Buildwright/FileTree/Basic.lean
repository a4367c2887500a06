/-!
# File trees

A tree holds files and directories at places. A place is the list of names that
lead to it from the root, and the root is a directory of every tree.

## Contents

* `Place`, `Node`, `FileTree`;
* `FileTree.find?` — what is at a place;
* `FileTree.put`, `FileTree.removeBelow`, `FileTree.clear` — the changes;
* `FileTree.below`, `FileTree.children` — listings.
-/

namespace Buildwright

/-- The names that lead from the root to a node. -/
abbrev Place := List String

namespace FileTree

/-- What a place holds. -/
inductive Node where
  | file (content : ByteArray)
  | directory
deriving Inhabited

/-- Files are equal if their bytes are. -/
instance : DecidableEq Node
  | .directory, .directory => isTrue rfl
  | .directory, .file _ => isFalse nofun
  | .file _, .directory => isFalse nofun
  | .file ⟨a⟩, .file ⟨b⟩ =>
    if h : a = b then isTrue (by rw [h]) else isFalse fun e => h (by cases e; rfl)

end FileTree

/-- Files and directories by place. -/
structure FileTree where
  nodes : List (Place × FileTree.Node) := []
deriving DecidableEq, Inhabited

namespace FileTree

/-- What is at a place; nothing if there is neither a file nor a directory. -/
def find? (t : FileTree) (place : Place) : Option Node :=
  if place = [] then some .directory else t.nodes.lookup place

/-- Put a node at a place, instead of the one that is there. -/
def put (t : FileTree) (place : Place) (n : Node) : FileTree :=
  ⟨(place, n) :: t.nodes.filter (·.1 ≠ place)⟩

/-- Remove the node at a place and all below it. -/
def removeBelow (t : FileTree) (place : Place) : FileTree :=
  ⟨t.nodes.filter fun n => !place.isPrefixOf n.1⟩

/-- Remove all below a place. -/
def clear (t : FileTree) (place : Place) : FileTree :=
  ⟨t.nodes.filter fun n => !place.isPrefixOf n.1 || n.1 = place⟩

/-- The nodes below a place, with the names that lead there from it. -/
def below (t : FileTree) (place : Place) : List (Place × Node) :=
  t.nodes.filterMap fun n =>
    if place.isPrefixOf n.1 && n.1 ≠ place then some (n.1.drop place.length, n.2) else none

/-- The names of the nodes directly below a place. -/
def children (t : FileTree) (place : Place) : List String :=
  (t.below place).filterMap fun n =>
    match n.1 with
    | [name] => some name
    | _ => none

/-- Dropping the entries of one place does not change the lookup of another. -/
theorem lookup_filter_ne {l : List (Place × Node)} {p q : Place} (h : q ≠ p) :
    (l.filter (·.1 ≠ p)).lookup q = l.lookup q := by
  induction l with
  | nil => rfl
  | cons e rest ih =>
    obtain ⟨k, v⟩ := e
    by_cases hk : k = p
    · subst hk
      have : (q == k) = false := by simpa using h
      simp only [ne_eq, List.filter_cons, not_true_eq_false, decide_false, Bool.false_eq_true,
        if_false, List.lookup_cons, this]
      exact ih
    · simp only [ne_eq, List.filter_cons, hk, not_false_eq_true, decide_true, if_true,
        List.lookup_cons]
      rw [ih]

@[simp] theorem find?_put_self (t : FileTree) {p : Place} (n : Node) (h : p ≠ []) :
    (t.put p n).find? p = some n := by
  simp [find?, put, h]

theorem find?_put_of_ne (t : FileTree) {p q : Place} (n : Node) (h : q ≠ p) :
    (t.put p n).find? q = t.find? q := by
  unfold find? put
  split
  · rfl
  · have : (q == p) = false := by simpa using h
    simp only [List.lookup_cons, this]
    exact lookup_filter_ne h

end FileTree

end Buildwright
