import Buildwright.Graph.LowLink

/-!
# Strong components

Two vertices belong to one component if each leads to the other. Components are
numbered in the order in which the search completes them, so that a component has a
greater number than those it leads to; the members of one component stand in the
order in which the search entered them.

## Contents

* `StrongComponent`, `Condensation` — the components of a graph;
* `Condensation.addEdge` — what an edge tells about the components of its ends;
* `Digraph.condense` — the components with all edges.
-/

namespace Buildwright

/-- A largest set of vertices that lead to each other. -/
structure StrongComponent where
  id : Nat
  members : List Nat
  /-- The other components that edges of the members lead to, ascending. -/
  dependsOn : List Nat := []
  /-- Whether a member is its own successor. -/
  selfLoop : Bool := false
deriving DecidableEq, Repr, Inhabited

namespace StrongComponent

def isCycle (c : StrongComponent) : Bool :=
  c.members.length > 1 || c.selfLoop

end StrongComponent

/-- The components of a graph, each at the place of its number. -/
structure Condensation where
  components : List StrongComponent
  /-- The vertices with the numbers of their components. -/
  places : List (Nat × Nat)
deriving DecidableEq, Repr, Inhabited

/-- Put a number into an ascending list, unless it is there. -/
def insertAscending (n : Nat) : List Nat → List Nat
  | [] => [n]
  | m :: rest =>
    if n < m then n :: m :: rest
    else if n = m then m :: rest
    else m :: insertAscending n rest

namespace Condensation

def componentOf? (c : Condensation) (v : Nat) : Option Nat :=
  c.places.lookup v

def modify (c : Condensation) (id : Nat) (f : StrongComponent → StrongComponent) :
    Condensation :=
  { c with components := c.components.modify id f }

/-- Note an edge of the graph: it makes its vertex a loop, or one component depend on
    another. -/
def addEdge (c : Condensation) (e : Nat × Nat) : Condensation :=
  match c.componentOf? e.1, c.componentOf? e.2 with
  | some a, some b =>
    if e.1 = e.2 then c.modify a fun k => { k with selfLoop := true }
    else if a ≠ b then
      c.modify a fun k => { k with dependsOn := insertAscending b k.dependsOn }
    else c
  | _, _ => c

def cycle? (c : Condensation) : Option StrongComponent :=
  c.components.find? StrongComponent.isCycle

def vertices (c : Condensation) (order : List Nat) : List Nat :=
  order.flatMap fun id => (c.components[id]?.map StrongComponent.members).getD []

end Condensation

namespace LowLink

/-- The components that the search has completed, without their edges. -/
def condensation (s : LowLink) : Condensation where
  components := s.closed.reverse.mapIdx fun id members => { id, members }
  places := s.places

end LowLink

namespace Digraph

/-- The components of the graph, found by a search from `roots`. -/
def condense (g : Digraph) (roots : List Nat) : Condensation :=
  g.edges.foldl Condensation.addEdge (g.lowLink roots).condensation

end Digraph

end Buildwright
