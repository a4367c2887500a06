import Buildwright.Graph.Components

/-!
# Order of components

Components are emitted one by one, each after those it depends on. Every component
counts the dependencies that are not placed yet and is ready when there is none left;
of several ready components the one of the least number is placed next.

## Contents

* `Placement` — how far the order has come;
* `Condensation.placeNext` — place the least component that is ready;
* `Condensation.emission` — the numbers of the components in order.
-/

namespace Buildwright

/-- The components of a condensation while they are put in order. -/
structure Placement where
  /-- For every component, how many of those it depends on are not placed. -/
  remaining : List Nat
  /-- The components that are ready and not placed. -/
  ready : List Nat
  /-- The components that are placed, the latest one first. -/
  placed : List Nat := []
deriving DecidableEq, Repr, Inhabited

namespace Placement

/-- Count one dependency of a component less. -/
def release (p : Placement) (id : Nat) : Placement :=
  match p.remaining[id]? with
  | none => p
  | some n =>
    { p with
      remaining := p.remaining.set id (n - 1)
      ready := if n - 1 = 0 then id :: p.ready else p.ready }

end Placement

namespace Condensation

/-- The components that depend on one of them. -/
def dependents (c : Condensation) (id : Nat) : List Nat :=
  (c.components.filter (id ∈ ·.dependsOn)).map StrongComponent.id

/-- Nothing is placed, and what depends on nothing is ready. -/
def firstPlacement (c : Condensation) : Placement where
  remaining := c.components.map (·.dependsOn.length)
  ready := (c.components.filter (·.dependsOn.isEmpty)).map StrongComponent.id

/-- Place the least component that is ready, if there is one. -/
def placeNext (c : Condensation) (p : Placement) : Placement :=
  match p.ready.min? with
  | none => p
  | some id =>
    (c.dependents id).foldl Placement.release
      { p with ready := p.ready.erase id, placed := id :: p.placed }

/-- Place `n` components one after the other, as long as one is ready. -/
def place (c : Condensation) : Nat → Placement
  | 0 => c.firstPlacement
  | n + 1 => c.placeNext (c.place n)

/-- The numbers of the components, each after those it depends on. -/
def emission (c : Condensation) : List Nat :=
  (c.place c.components.length).placed.reverse

end Condensation

end Buildwright
