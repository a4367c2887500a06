import Buildwright.Graph.Basic
import Mathlib.Data.List.Basic

/-! # Walks in a graph

    `Digraph.Reaches` is built from the front.  This file adds the other end
    and composition, and names what the analyses of a graph speak of:

    * `Digraph.Mutual` — two vertices that lead to each other;
    * `Digraph.DependsOn` — a walk of at least one edge;
    * `Digraph.Acyclic` — no vertex depends on itself. -/

namespace Buildwright.Digraph

variable {g : Digraph} {u v w : Nat}

theorem Reaches.of_edge (h : g.Edge u v) : g.Reaches u v :=
  .step h (.refl v)

theorem Reaches.trans (huv : g.Reaches u v) (hvw : g.Reaches v w) : g.Reaches u w := by
  induction huv with
  | refl v => exact hvw
  | step he _ ih => exact .step he (ih hvw)

/-- A walk can be made longer at its end. -/
theorem Reaches.tail (huv : g.Reaches u v) (he : g.Edge v w) : g.Reaches u w :=
  huv.trans (.of_edge he)

/-- A set of vertices that no edge leaves is left by no walk. -/
theorem Reaches.mem_of_closed {P : Nat → Prop} (hP : ∀ u v, P u → g.Edge u v → P v)
    (h : g.Reaches u v) (hu : P u) : P v := by
  induction h with
  | refl v => exact hu
  | step he _ ih => exact ih (hP _ _ hu he)

/-- Whether each of two vertices leads to the other. -/
def Mutual (g : Digraph) (v w : Nat) : Prop :=
  g.Reaches v w ∧ g.Reaches w v

/-- Whether a walk of one or more edges leads from `v` to `w`. -/
def DependsOn (g : Digraph) (v w : Nat) : Prop :=
  ∃ u, g.Edge v u ∧ g.Reaches u w

/-- Whether no vertex leads back to itself. -/
def Acyclic (g : Digraph) : Prop :=
  ∀ v, ¬ g.DependsOn v v

/-- The successors of a vertex of the graph are one of its lists. -/
theorem next_mem_successors (hv : v < g.size) : g.next v ∈ g.successors := by
  rw [next, List.getD_eq_getElem?_getD, List.getElem?_eq_getElem hv]
  exact List.getElem_mem hv

/-- A vertex with a successor is in the graph. -/
theorem Edge.lt_size (h : g.Edge v w) : v < g.size := by
  by_contra hv
  have hnil : g.next v = [] := by
    rw [next, List.getD_eq_getElem?_getD, List.getElem?_eq_none (Nat.le_of_not_lt hv)]
    rfl
  rw [Edge, hnil] at h
  exact absurd h List.not_mem_nil

/-- In a graph whose edges are in range, every edge ends in the graph. -/
theorem InRange.edge_lt (hg : g.InRange) (h : g.Edge v w) : w < g.size :=
  hg _ (next_mem_successors h.lt_size) w h

/-- All edges are listed. -/
theorem mem_edges_iff {e : Nat × Nat} : e ∈ g.edges ↔ g.Edge e.1 e.2 := by
  obtain ⟨v, w⟩ := e
  simp only [edges, vertices, List.mem_flatMap, List.mem_range, List.mem_map]
  constructor
  · rintro ⟨u, -, x, hx, he⟩
    obtain ⟨rfl, rfl⟩ := Prod.mk.inj he
    exact hx
  · intro h
    exact ⟨v, Edge.lt_size h, w, h, rfl⟩

end Buildwright.Digraph
