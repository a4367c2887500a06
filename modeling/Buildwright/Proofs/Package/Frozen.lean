import Buildwright.Proofs.Outcome
import Buildwright.Proofs.Package.Renumbering

/-! # Frozen catalogs

    A catalog whose packages are all done can be frozen, and nothing but the
    states of its packages is left out.  Packages are found as before, and
    catalogs that differ by a renumbering freeze to sets of rules that do.

    * `Catalog.freeze_eq_ok_iff` — which catalogs can be frozen, and to what;
    * `Catalog.exists_declared_of_mem_adoptAll`, `Catalog.exists_rule_of_mem_adoptAll` — the
      rules are the declarations;
    * `Catalog.Renumbers.frozen` — renumbered catalogs. -/

namespace Buildwright

/-- The package as it is frozen. -/
def Package.loaded (p : Package) : LoadedPackage where
  key := p.key
  file := p.file.getD ⟨""⟩
  rules := p.rules

namespace Catalog

variable {c c' : Catalog} {σ : Equiv.Perm RuleId} {set : RuleSet} {key : String}

/-- The packages and the rules of a catalog. -/
def frozen (c : Catalog) : RuleSet where
  rules := c.rules
  packages := c.packages.map Package.loaded

theorem freezePackage_of_done {p : Package} (h : p.state = .done) :
    freezePackage p = .ok p.loaded := by
  rw [freezePackage, if_pos h]
  rfl

theorem freezePackage_eq_ok {p : Package} {q : LoadedPackage} (h : freezePackage p = .ok q) :
    p.state = .done := by
  by_contra hnot
  rw [freezePackage, if_neg hnot] at h
  cases h

/-- A catalog can be frozen if and only if all its packages are done. -/
theorem freeze_eq_ok_iff :
    c.freeze = .ok set ↔ (∀ p ∈ c.packages, p.state = .done) ∧ set = c.frozen := by
  constructor
  · intro h
    have hdone : ∀ p ∈ c.packages, p.state = .done := by
      intro p hp
      cases hm : c.packages.mapM freezePackage with
      | error fault =>
          rw [freeze, hm] at h
          cases h
      | ok packages =>
          obtain ⟨q, -, hq⟩ := exists_mem_of_mapM hm hp
          exact freezePackage_eq_ok hq
    rw [freeze, mapM_eq_ok_map fun p hp => freezePackage_of_done (hdone p hp)] at h
    exact ⟨hdone, (Except.ok.inj h).symm⟩
  · rintro ⟨hdone, rfl⟩
    rw [freeze, mapM_eq_ok_map fun p hp => freezePackage_of_done (hdone p hp)]
    rfl

/-- Packages are found as they were before. -/
theorem package?_frozen (c : Catalog) (key : String) :
    c.frozen.package? key = (c.package? key).map Package.loaded := by
  rw [RuleSet.package?, package?, frozen, List.find?_map]
  rfl

/-- The packages of adopted contents have their keys and files. -/
theorem sources_frozen_adoptAll (ps : List Contents) :
    ((c.adoptAll ps).frozen.packages.map fun q => (q.key, q.file)).Perm
      (ps.map (fun p => (p.key, p.file)) ++ c.frozen.packages.map fun q => (q.key, q.file)) := by
  induction ps generalizing c with
  | nil => exact .refl _
  | cons p rest ih =>
      have hp : ((c.adopt p).frozen.packages.map fun q => (q.key, q.file)).Perm
          ((p.key, p.file) :: c.frozen.packages.map fun q => (q.key, q.file)) :=
        ((insertPackage_perm (p.packageFrom c.rules.length .done) c.packages).map _).map _
      exact ih.trans ((hp.append_left _).trans List.perm_middle)

/-- Every rule of adopted packages is one of their declarations. -/
theorem exists_declared_of_mem_adoptAll {ps : List Contents} {rule : Rule}
    (h : rule ∈ (c.adoptAll ps).rules) : rule ∈ c.rules ∨
      ∃ p ∈ ps, rule.package = p.key ∧ rule.declaration ∈ p.declarations := by
  induction ps generalizing c with
  | nil => exact .inl h
  | cons p rest ih =>
      rcases ih h with hrule | ⟨q, hq, hrule⟩
      · rcases List.mem_append.1 hrule with hrule | hrule
        · exact .inl hrule
        · obtain ⟨i, hi, rfl⟩ := List.mem_mapIdx.1 hrule
          exact .inr ⟨p, List.mem_cons_self .., rfl, List.getElem_mem hi⟩
      · exact .inr ⟨q, List.mem_cons_of_mem _ hq, hrule⟩

/-- Every declaration of an adopted package is that of one of its rules. -/
theorem exists_rule_of_mem_adoptAll {ps : List Contents} {p : Contents} {d : Declaration}
    (hp : p ∈ ps) (hd : d ∈ p.declarations) :
    ∃ rule ∈ (c.adoptAll ps).rules, rule.package = p.key ∧ rule.declaration = d := by
  induction ps generalizing c with
  | nil => exact absurd hp List.not_mem_nil
  | cons q rest ih =>
      rcases List.mem_cons.1 hp with rfl | hp
      · obtain ⟨i, hi, rfl⟩ := List.mem_iff_getElem.1 hd
        refine ⟨⟨c.rules.length + i, p.key, p.declarations[i]⟩,
          (rules_prefix_adoptAll rest).subset (List.mem_append_right _ ?_), rfl, rfl⟩
        exact List.mem_mapIdx.2 ⟨i, hi, rfl⟩
      · exact ih hp

/-- The rules of a frozen catalog stand at the places of their numbers. -/
theorem Numbered.frozen (h : c.Numbered) : c.frozen.Numbered :=
  h.rules

/-- Catalogs that differ by a renumbering still do when they are frozen. -/
theorem Renumbers.frozen (h : c.Renumbers σ c') : c.frozen.Renumbers σ c'.frozen where
  packages := by
    rw [Catalog.frozen, Catalog.frozen, h.packages, List.map_map, List.map_map]
    rfl
  rules := h.rules

end Catalog

end Buildwright
