/-!
# Directed graphs

A graph has the vertices `0 … size - 1` and a list of successors for each. The
order of successors counts: it is the order in which searches follow the edges.
A vertex outside the range has no successors.

## Contents

* `Digraph`, `Digraph.next`, `Digraph.edges`;
* `Digraph.Edge`, `Digraph.Reaches` — the relations behind the searches;
* `Digraph.InRange` — every successor is a vertex.
-/

namespace Buildwright

/-- A directed graph, as the list of successor lists. -/
structure Digraph where
  successors : List (List Nat)
deriving DecidableEq, Repr, Inhabited

namespace Digraph

def size (g : Digraph) : Nat :=
  g.successors.length

/-- The successors of a vertex, in order. -/
def next (g : Digraph) (v : Nat) : List Nat :=
  g.successors.getD v []

def vertices (g : Digraph) : List Nat :=
  List.range g.size

/-- All edges, by their first vertex and then in the order of successors. -/
def edges (g : Digraph) : List (Nat × Nat) :=
  g.vertices.flatMap fun v => (g.next v).map fun w => (v, w)

/-- Whether an edge leads from `v` to `w`. -/
def Edge (g : Digraph) (v w : Nat) : Prop :=
  w ∈ g.next v

instance (g : Digraph) (v w : Nat) : Decidable (g.Edge v w) :=
  inferInstanceAs (Decidable (_ ∈ _))

/-- Whether a walk of zero or more edges leads from `v` to `w`. -/
inductive Reaches (g : Digraph) : Nat → Nat → Prop where
  | refl (v : Nat) : Reaches g v v
  | step {u v w : Nat} : g.Edge u v → Reaches g v w → Reaches g u w

/-- Whether every successor is a vertex. -/
def InRange (g : Digraph) : Prop :=
  ∀ vs ∈ g.successors, ∀ v ∈ vs, v < g.size

instance (g : Digraph) : Decidable g.InRange :=
  inferInstanceAs (Decidable (∀ vs ∈ g.successors, ∀ v ∈ vs, v < g.size))

end Digraph

end Buildwright
