import Buildwright.Linked
import Buildwright.Proofs.Lookup
import Buildwright.Proofs.Package.Renumbering
import Buildwright.Proofs.Renumbering.Components
import Buildwright.Proofs.Renumbering.Walk
import Mathlib.Data.List.Sort
import Mathlib.Data.String.Basic

/-! # Linking renumbered rules

    Rules are looked up by names, and names do not change when rules are
    renumbered.  So a dependency text names the renumbered rule, every rule has
    the renumbered dependencies, and the order of names is the renumbered order
    as long as no two rules share a full name.

    * `RuleSet.Renumbers.byName` — the order of names;
    * `RuleSet.Renumbers.target`, `RuleSet.Renumbers.dependencies` — edges;
    * `RuleSet.Renumbers.link` — the graph of all rules. -/

namespace Buildwright

variable {σ : Equiv.Perm RuleId} {s t : RuleSet}

/-! ## Lists -/

/-- Repetitions are dropped alike from a list and its image under an injection. -/
theorem eraseDups_map {α β : Type} [DecidableEq α] [DecidableEq β] {f : α → β}
    (hf : Function.Injective f) (l : List α) : (l.map f).eraseDups = l.eraseDups.map f := by
  induction hn : l.length using Nat.strong_induction_on generalizing l with
  | _ n ih =>
      cases l with
      | nil => rfl
      | cons a rest =>
          have hfilter : (rest.map f).filter (fun b => !b == f a) =
              (rest.filter fun b => !b == a).map f := by
            rw [List.filter_map]
            refine congrArg (List.map f) (List.filter_congr fun b _ => ?_)
            simp [hf.eq_iff]
          have hlen : (rest.filter fun b => !b == a).length < n := by
            rw [← hn, List.length_cons]
            exact Nat.lt_succ_of_le (List.length_filter_le ..)
          rw [List.map_cons, List.eraseDups_cons, List.eraseDups_cons, hfilter,
            ih _ hlen _ rfl, List.map_cons]

/-- Nothing is left twice. -/
theorem nodup_eraseDups {α : Type} [DecidableEq α] (l : List α) : l.eraseDups.Nodup := by
  induction hn : l.length using Nat.strong_induction_on generalizing l with
  | _ n ih =>
      cases l with
      | nil => exact List.nodup_nil
      | cons a rest =>
          have hlen : (rest.filter fun b => !b == a).length < n := by
            rw [← hn, List.length_cons]
            exact Nat.lt_succ_of_le (List.length_filter_le ..)
          rw [List.eraseDups_cons, List.nodup_cons]
          refine ⟨fun hmem => ?_, ih _ hlen _ rfl⟩
          simpa using (List.mem_filter.1 (List.mem_eraseDups.1 hmem)).2

/-- Two orders of the same elements by a key that tells them apart are one order. -/
theorem eq_of_perm_of_pairwise_key {α : Type} {f : α → String} {l l' : List α} (h : l.Perm l')
    (hl : l.Pairwise fun a b => f a ≤ f b) (hl' : l'.Pairwise fun a b => f a ≤ f b)
    (hf : (l.map f).Nodup) : l = l' := by
  refine List.Perm.eq_of_pairwise (fun a b ha hb hab hba => ?_) hl hl' h
  exact List.inj_on_of_nodup_map hf ha (h.mem_iff.2 hb) (le_antisymm hab hba)

namespace RuleSet

theorem pairwise_byName (s : RuleSet) : s.byName.Pairwise fun a b => a.fullName ≤ b.fullName := by
  have htrans : ∀ a b c : Rule, decide (a.fullName ≤ b.fullName) = true →
      decide (b.fullName ≤ c.fullName) = true → decide (a.fullName ≤ c.fullName) = true := by
    intro a b c hab hbc
    exact decide_eq_true ((of_decide_eq_true hab).trans (of_decide_eq_true hbc))
  have htotal : ∀ a b : Rule,
      (decide (a.fullName ≤ b.fullName) || decide (b.fullName ≤ a.fullName)) = true := by
    intro a b
    simpa using le_total a.fullName b.fullName
  have hsorted : s.byName.Pairwise fun a b => decide (a.fullName ≤ b.fullName) = true :=
    List.pairwise_mergeSort htrans htotal s.rules
  exact hsorted.imp of_decide_eq_true

namespace Renumbers

theorem fullName (h : s.Renumbers σ t) (id : RuleId) : t.fullName (σ id) = s.fullName id := by
  rw [RuleSet.fullName, RuleSet.fullName, h.rules id, Option.map_map]
  rfl

theorem package? (h : s.Renumbers σ t) (key : String) :
    t.package? key = (s.package? key).map (LoadedPackage.renumber σ) := by
  rw [RuleSet.package?, RuleSet.package?, h.packages, List.find?_map]
  rfl

theorem files (h : s.Renumbers σ t) : t.files = s.files := by
  rw [RuleSet.files, RuleSet.files, h.packages, List.map_map]
  rfl

/-- The order of names is the renumbered order. -/
theorem byName (h : s.Renumbers σ t) (hnames : (s.rules.map Rule.fullName).Nodup) :
    t.byName = s.byName.map (Rule.renumber σ) := by
  have hperm : t.byName.Perm (s.byName.map (Rule.renumber σ)) :=
    t.byName_perm.trans (h.rules.perm.trans (s.byName_perm.map _).symm)
  have hnodup : (t.byName.map Rule.fullName).Nodup := by
    have hall : (t.byName.map Rule.fullName).Perm (s.rules.map Rule.fullName) := by
      have hmap := (t.byName_perm.trans h.rules.perm).map Rule.fullName
      rw [List.map_map] at hmap
      exact hmap
    exact hall.nodup_iff.2 hnames
  refine eq_of_perm_of_pairwise_key hperm t.pairwise_byName ?_ hnodup
  exact List.pairwise_map.2 s.pairwise_byName

theorem idsByName (h : s.Renumbers σ t) (hnames : (s.rules.map Rule.fullName).Nodup) :
    t.idsByName = s.idsByName.map σ := by
  rw [RuleSet.idsByName, RuleSet.idsByName, h.byName hnames, List.map_map, List.map_map]
  rfl

/-- A reference names the renumbered rule. -/
theorem named (h : s.Renumbers σ t) (rule : Rule) (raw : String) (reference : Reference) :
    t.named (rule.renumber σ) raw reference = (s.named rule raw reference).map σ := by
  have hkey : (rule.renumber σ).package = rule.package := rfl
  have hname : (rule.renumber σ).fullName = rule.fullName := rfl
  rw [RuleSet.named, RuleSet.named, hkey, hname, h.package?]
  cases s.package? (reference.resolve rule.package) with
  | none => rfl
  | some package =>
      have hlookup : (package.renumber σ).rules.lookup reference.rule =
          (package.rules.lookup reference.rule).map σ := lookup_map_values σ package.rules _
      simp only [Option.map_some, hlookup]
      cases package.rules.lookup reference.rule with
      | none => rfl
      | some id =>
          have hversion : t.rules[σ id]?.map Rule.version = s.rules[id]?.map Rule.version := by
            rw [h.rules id, Option.map_map]
            rfl
          simp only [Option.map_some, hversion]
          cases reference.version with
          | none => rfl
          | some required =>
              by_cases hv : s.rules[id]?.map Rule.version = some required
              · simp only [if_pos hv]
                rfl
              · simp only [if_neg hv]
                rfl

theorem target (h : s.Renumbers σ t) (rule : Rule) (raw : String) :
    t.target (rule.renumber σ) raw = (s.target rule raw).map σ := by
  rw [RuleSet.target, RuleSet.target]
  cases Reference.parse raw with
  | error fault => rfl
  | ok reference => exact h.named rule raw reference

theorem dependencies (h : s.Renumbers σ t) (rule : Rule) :
    t.dependencies (rule.renumber σ) = (s.dependencies rule).map (List.map σ) := by
  have hdeps : (rule.renumber σ).deps = rule.deps := rfl
  have htarget : t.target (rule.renumber σ) = fun raw => (s.target rule raw).map σ :=
    funext (h.target rule)
  rw [RuleSet.dependencies, RuleSet.dependencies, hdeps, htarget, mapM_except_map]
  cases rule.deps.mapM (s.target rule) with
  | error fault => rfl
  | ok targets => exact congrArg Except.ok (eraseDups_map σ.injective targets)

end Renumbers

end RuleSet

/-! ## The graph of all rules -/

/-- Whether linked rules differ only by the permutation of the numbers. -/
structure Linked.Renumbers (σ : Equiv.Perm RuleId) (l m : Linked) : Prop where
  set : l.set.Renumbers σ m.set
  graph : l.graph.Renumbers σ m.graph

namespace RuleSet

/-- What linked rules are made of: the rules, and the dependencies of each. -/
theorem link_eq_ok {l : Linked} (h : s.link = .ok l) :
    l.set = s ∧ s.rules.mapM s.dependencies = .ok l.graph.successors := by
  unfold RuleSet.link at h
  cases hnames : s.byName.mapM s.dependencies with
  | error fault =>
      rw [hnames] at h
      cases h
  | ok lists =>
      cases hrules : s.rules.mapM s.dependencies with
      | error fault =>
          rw [hnames, hrules] at h
          cases h
      | ok lists' =>
          rw [hnames, hrules] at h
          have hlists : Linked.ofLists s lists' = .ok l := h
          rw [Linked.ofLists, dif_pos (length_of_mapM hrules)] at hlists
          cases hlists
          exact ⟨rfl, rfl⟩

/-- The rules that are gone through in the order of names are all rules. -/
theorem exists_dependencies_of_byName {lists : List (List RuleId)}
    (h : s.byName.mapM s.dependencies = .ok lists) :
    ∀ rule ∈ s.rules, ∃ ids, s.dependencies rule = .ok ids := by
  intro rule hrule
  obtain ⟨ids, -, hids⟩ := exists_mem_of_mapM h (s.byName_perm.mem_iff.2 hrule)
  exact ⟨ids, hids⟩

/-- Rules whose dependencies all resolve can be linked. -/
theorem link_of_mapM {lists : List (List RuleId)} (h : s.rules.mapM s.dependencies = .ok lists) :
    ∃ l, s.link = .ok l := by
  obtain ⟨byName, hnames⟩ : ∃ lists, s.byName.mapM s.dependencies = .ok lists := by
    refine exists_mapM_eq_ok fun rule hrule => ?_
    obtain ⟨ids, -, hids⟩ := exists_mem_of_mapM h (s.byName_perm.mem_iff.1 hrule)
    exact ⟨ids, hids⟩
  refine ⟨⟨s, ⟨lists⟩, length_of_mapM h⟩, ?_⟩
  rw [RuleSet.link, hnames, h]
  exact dif_pos (length_of_mapM h)

/-- Of several faults, linking reports the one that comes first in the order of names. -/
theorem link_eq_error {fault : Fault} (h : s.byName.mapM s.dependencies = .error fault) :
    s.link = .error fault := by
  rw [RuleSet.link, h]
  rfl

namespace Renumbers

theorem mapM_dependencies (h : s.Renumbers σ t) (rules : List Rule) :
    (rules.map (Rule.renumber σ)).mapM t.dependencies =
      (rules.mapM s.dependencies).map (List.map (List.map σ)) := by
  rw [← mapM_except_map, List.mapM_map]
  exact congrArg rules.mapM (funext h.dependencies)

/-- Renumbered rules are linked alike. -/
theorem link (h : s.Renumbers σ t) (hnames : (s.rules.map Rule.fullName).Nodup) :
    Agrees Eq (fun l m => l.set = s ∧ l.Renumbers σ m) s.link t.link := by
  cases hs : s.byName.mapM s.dependencies with
  | error fault =>
      have ht : t.byName.mapM t.dependencies = .error fault := by
        rw [h.byName hnames, h.mapM_dependencies, hs]
        rfl
      rw [link_eq_error hs, link_eq_error ht]
      exact .error rfl
  | ok byName =>
      -- both resolve all dependencies, so the lists stand where the rules stand
      have hrules := exists_dependencies_of_byName hs
      have hrules' : ∀ rule ∈ t.rules, ∃ ids, t.dependencies rule = .ok ids := by
        intro rule' hrule'
        obtain ⟨rule, hrule, rfl⟩ := List.mem_map.1 (h.rules.perm.mem_iff.1 hrule')
        obtain ⟨ids, hids⟩ := hrules rule hrule
        exact ⟨ids.map σ, by rw [h.dependencies, hids]; rfl⟩
      obtain ⟨lists, hlists⟩ := exists_mapM_eq_ok hrules
      obtain ⟨lists', hlists'⟩ := exists_mapM_eq_ok hrules'
      obtain ⟨l, hl⟩ := link_of_mapM hlists
      obtain ⟨m, hm⟩ := link_of_mapM hlists'
      obtain ⟨rfl, hgraph⟩ := link_eq_ok hl
      obtain ⟨rfl, hgraph'⟩ := link_eq_ok hm
      rw [hl, hm]
      refine .ok ⟨rfl, h, ?_⟩
      rw [Digraph.Renumbers, eq_map_of_mapM hgraph [], eq_map_of_mapM hgraph' []]
      refine h.rules.map fun rule _ => ?_
      rw [h.dependencies]
      cases l.set.dependencies rule with
      | error fault => rfl
      | ok ids => rfl

/-- The same cycle is reported, with its rules in the same order. -/
theorem checkAcyclic (h : s.Renumbers σ t) (c : Condensation) :
    t.checkAcyclic (c.renumber σ) = s.checkAcyclic c := by
  rw [RuleSet.checkAcyclic, RuleSet.checkAcyclic, Condensation.cycle?_renumber]
  cases c.cycle? with
  | none => rfl
  | some component =>
      show Except.error (Fault.cycle (((component.members.map σ).map t.fullName).mergeSort _)) = _
      rw [List.map_map, show t.fullName ∘ σ = s.fullName from funext h.fullName]

end Renumbers

end RuleSet

/-- The components are found alike. -/
theorem Linked.Renumbers.condense {l m : Linked} (h : l.Renumbers σ m)
    (hnames : (l.set.rules.map Rule.fullName).Nodup) : m.condense = l.condense.renumber σ := by
  rw [Linked.condense, Linked.condense, h.set.idsByName hnames]
  exact Digraph.condense_renumber h.graph l.set.idsByName

end Buildwright
