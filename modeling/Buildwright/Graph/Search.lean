import Buildwright.Graph.Basic

/-!
# Depth-first search

What the searches of the graph share. A search enters every vertex at most once, so
it ends when it has run out of vertices that it has not entered.

## Contents

* `Event`, `Search` — agenda and records of a search that works off events;
* `Digraph.unseen` — the vertices that are left, as a measure.
-/

namespace Buildwright

/-- What the search does next. -/
inductive Event where
  | enter (v : Nat)
  | leave (v : Nat)
deriving DecidableEq, Repr

/-- The records of a search, each with the latest vertex first. -/
structure Search where
  /-- Vertices entered and not yet left. -/
  path : List Nat := []
  entered : List Nat := []
  left : List Nat := []
deriving DecidableEq, Repr, Inhabited

namespace Digraph

/-- The number of vertices that are not among `seen`. -/
def unseen (g : Digraph) (seen : List Nat) : Nat :=
  g.vertices.countP (· ∉ seen)

/-- Seeing a new member of a list leaves fewer of its members unseen. -/
theorem countP_notMem_cons_lt {l : List Nat} {v : Nat} {seen : List Nat}
    (hv : v ∈ l) (hs : v ∉ seen) :
    l.countP (· ∉ v :: seen) < l.countP (· ∉ seen) := by
  induction l with
  | nil => simp at hv
  | cons x xs ih =>
    by_cases hx : x = v
    · subst hx
      have hle : xs.countP (· ∉ x :: seen) ≤ xs.countP (· ∉ seen) := by
        apply List.countP_mono_left
        intro a _
        simp
      have h1 : (x :: xs).countP (· ∉ x :: seen) = xs.countP (· ∉ x :: seen) :=
        List.countP_cons_of_neg (by simp)
      have h2 : (x :: xs).countP (· ∉ seen) = xs.countP (· ∉ seen) + 1 :=
        List.countP_cons_of_pos (by simp [hs])
      omega
    · have hmem : v ∈ xs := by
        rcases List.mem_cons.1 hv with h | h
        · exact absurd h.symm hx
        · exact h
      have := ih hmem
      by_cases hxs : x ∈ seen
      · rw [List.countP_cons_of_neg (by simp [hxs]), List.countP_cons_of_neg (by simp [hxs])]
        exact this
      · rw [List.countP_cons_of_pos (by simp [hx, hxs]), List.countP_cons_of_pos (by simp [hxs])]
        omega

/-- Entering a new vertex of the graph leaves fewer to enter. -/
theorem unseen_cons_lt {g : Digraph} {v : Nat} {seen : List Nat}
    (hv : v < g.size) (hs : v ∉ seen) : g.unseen (v :: seen) < g.unseen seen :=
  countP_notMem_cons_lt (List.mem_range.2 hv) hs

end Digraph

end Buildwright
