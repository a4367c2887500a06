import Buildwright.Graph.Order
import Buildwright.Graph.Walk
import Buildwright.Package.Catalog
import Buildwright.Reference

/-!
# Linked rules

Linking turns the dependency texts of every rule into edges of a graph on the
numbers of the rules.

## Contents

* `RuleSet.target` — the rule that a dependency text names;
* `RuleSet.dependencies` — the edges of one rule;
* `Linked`, `RuleSet.link` — all rules with their edges;
* `Linked.dependenciesInOrder`, `Linked.condense`, `Linked.checkAcyclic`.
-/

namespace Buildwright

namespace RuleSet

/-- The rule that a reference of `rule` names. -/
def named (s : RuleSet) (rule : Rule) (raw : String) (reference : Reference) : Outcome RuleId :=
  let key := reference.resolve rule.package
  let notFound : Fault := .dependencyNotFound rule.fullName raw
  match s.package? key with
  | none => .error (.packageNotLoaded rule.fullName key)
  | some package =>
    match package.rules.lookup reference.rule with
    | none => .error notFound
    | some id =>
      -- a required version has to be the declared one
      match reference.version with
      | none => .ok id
      | some required =>
        if s.rules[id]?.map Rule.version = some required then .ok id else .error notFound

/-- The rule that a dependency text of `rule` names. -/
def target (s : RuleSet) (rule : Rule) (raw : String) : Outcome RuleId := do
  s.named rule raw (← Reference.parse raw)

/-- The rules that the dependency texts of a rule name, each once, in order of
    first mention. -/
def dependencies (s : RuleSet) (rule : Rule) : Outcome (List RuleId) := do
  let targets ← rule.deps.mapM (s.target rule)
  return targets.eraseDups

end RuleSet

/-- Rules with the graph of their dependencies. -/
structure Linked where
  set : RuleSet
  graph : Digraph
  size_eq : graph.size = set.rules.length
deriving DecidableEq

namespace Linked

/-- The rules of a set with a list of dependencies for each. -/
def ofLists (set : RuleSet) (lists : List (List RuleId)) : Outcome Linked :=
  if h : lists.length = set.rules.length then .ok ⟨set, ⟨lists⟩, h⟩
  else
    .error (.internal
      (toString lists.length ++ " dependency lists for " ++ toString set.rules.length ++ " rules"))

/-- Everything that a rule depends on, each rule after its own dependencies. -/
def dependenciesInOrder (l : Linked) (id : RuleId) : Outcome (List RuleId) :=
  match l.graph.dependenciesInOrder? id with
  | .ok order => .ok order
  | .error cycle => .error (.cycle (cycle.map l.set.fullName))

/-- The strong components of the dependency graph. -/
def condense (l : Linked) : Condensation :=
  l.graph.condense l.set.idsByName

end Linked

namespace RuleSet

/-- Fail if one of the components is a cycle; the fault names the rules of the
    first one in order of their names. -/
def checkAcyclic (s : RuleSet) (c : Condensation) : Outcome Unit :=
  match c.cycle? with
  | some component => .error (.cycle ((component.members.map s.fullName).mergeSort (· ≤ ·)))
  | none => .ok ()

/-- Link all rules. -/
def link (s : RuleSet) : Outcome Linked := do
  -- so that of several faults that of the rule with the least full name is reported
  let _ ← s.byName.mapM s.dependencies
  let lists ← s.rules.mapM s.dependencies
  Linked.ofLists s lists

end RuleSet

end Buildwright
