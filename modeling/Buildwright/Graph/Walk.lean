import Buildwright.Graph.Search

/-!
# Ordered walks

An ordered walk from a vertex lists everything that the vertex leads to, each
vertex after all of its successors. It breaks off at the first cycle that it
closes, with the cycle as its answer.

## Contents

* `Cycle.rotate`, `Cycle.close` — one way to write down a cycle, whichever of its
  vertices was met first;
* `Digraph.walk` — the search that breaks off;
* `Digraph.dependenciesInOrder?` — the list, or the cycle.
-/

namespace Buildwright

namespace Cycle

def least : List Nat → Nat
  | [] => 0
  | [v] => v
  | v :: vs => min v (least vs)

/-- The same round of vertices, begun at the least one. -/
def rotate (cycle : List Nat) : List Nat :=
  cycle.dropWhile (· ≠ least cycle) ++ cycle.takeWhile (· ≠ least cycle)

/-- A round with the first one repeated at the end. -/
def close {α : Type} : List α → List α
  | [] => []
  | v :: vs => v :: vs ++ [v]

/-- The round that ends when a search on `path` (latest vertex first) comes back
    to `v`. -/
def ofPath (path : List Nat) (v : Nat) : List Nat :=
  v :: (path.takeWhile (· ≠ v)).reverse

end Cycle

namespace Digraph

/-- Work off the agenda, and break off with the first cycle that is closed. -/
def walk (g : Digraph) (agenda : List Event) (s : Search) : Except (List Nat) Search :=
  match agenda with
  | [] => .ok s
  | .leave v :: rest => g.walk rest { s with path := s.path.drop 1, left := v :: s.left }
  | .enter v :: rest =>
    -- back on the path: the round since `v` is a cycle
    if v ∈ s.path then .error (Cycle.close (Cycle.rotate (Cycle.ofPath s.path v)))
    else if v ∈ s.entered ∨ ¬ v < g.size then g.walk rest s
    else
      -- the successors come first, and `v` is left behind them
      g.walk ((g.next v).map .enter ++ .leave v :: rest)
        { s with path := v :: s.path, entered := v :: s.entered }
termination_by (g.unseen s.entered, agenda.length)
decreasing_by
  · apply Prod.Lex.right
    simp
  · apply Prod.Lex.right
    simp
  · apply Prod.Lex.left
    rename_i h
    exact unseen_cons_lt (by omega) fun hm => h (Or.inl hm)

/-- Everything that `root` leads to, without `root`, each vertex once and after its
    own successors; or a cycle that `root` leads to. -/
def dependenciesInOrder? (g : Digraph) (root : Nat) : Except (List Nat) (List Nat) := do
  let s ← g.walk [.enter root] {}
  return s.left.reverse.filter (· ≠ root)

end Digraph

end Buildwright
