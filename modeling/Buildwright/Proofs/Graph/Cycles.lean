import Buildwright.Output.Generate
import Buildwright.Proofs.Graph.Components
import Buildwright.Proofs.Graph.Walk
import Buildwright.Proofs.Outcome
import Mathlib

/-! # Two ways to find a cycle

    Preparing a rule walks what it depends on and breaks off at a cycle; before files
    are generated, the components are checked.  A component is a cycle if and only if its
    members lead back to themselves, so the walk from a rule breaks off if and only if the
    rule leads to such a component, and the check never finds what no walk has found.

    * `Digraph.IsCondensation.isCycle_iff` — which components are cycles;
    * `Prepared.dependenciesInOrder_of_ofLinked` — prepared rules have been walked;
    * `Linked.cycle_checks_agree` — the walks and the check. -/

namespace Buildwright

/-! ## Components that are cycles -/

namespace Digraph.IsCondensation

variable {g : Digraph} {c : Condensation} {k : StrongComponent}

theorem nodup_members (h : g.IsCondensation c) (hk : k ∈ c.components) : k.members.Nodup :=
  (List.nodup_flatMap.1 (h.members_perm.nodup_iff.2 List.nodup_range)).1 k hk

/-- A member of a component that is a cycle leads back to itself. -/
theorem dependsOn_self (h : g.IsCondensation c) (hk : k ∈ c.components)
    (hcycle : k.isCycle = true) : ∃ v ∈ k.members, g.DependsOn v v := by
  rw [StrongComponent.isCycle, Bool.or_eq_true, decide_eq_true_iff] at hcycle
  rcases hcycle with hlen | hloop
  · have hnodup := h.nodup_members hk
    obtain ⟨v, w, rest, hm⟩ : ∃ v w rest, k.members = v :: w :: rest := by
      match hm : k.members with
      | [] => simp [hm] at hlen
      | [v] => simp [hm] at hlen
      | v :: w :: rest => exact ⟨v, w, rest, rfl⟩
    have hv : v ∈ k.members := hm ▸ List.mem_cons_self ..
    have hw : w ∈ k.members := hm ▸ List.mem_cons_of_mem v (List.mem_cons_self ..)
    have hne : v ≠ w := by
      rw [hm] at hnodup
      exact fun he => (List.nodup_cons.1 hnodup).1 (he ▸ List.mem_cons_self ..)
    obtain ⟨hvw, hwv⟩ := (h.mem_iff_mutual k hk v hv w).1 hw
    refine ⟨v, hv, ?_⟩
    cases hvw with
    | refl => exact absurd rfl hne
    | step he hr => exact ⟨_, he, hr.trans hwv⟩
  · obtain ⟨v, hv, he⟩ := (h.selfLoop_iff k hk).1 hloop
    exact ⟨v, hv, v, he, .refl v⟩

/-- A component is a cycle if a member of it leads back to itself. -/
theorem isCycle_of_dependsOn (h : g.IsCondensation c) (hk : k ∈ c.components) {v : Nat}
    (hv : v ∈ k.members) (hd : g.DependsOn v v) : k.isCycle = true := by
  obtain ⟨u, he, hr⟩ := hd
  rw [StrongComponent.isCycle, Bool.or_eq_true, decide_eq_true_iff]
  by_cases huv : u = v
  · exact .inr ((h.selfLoop_iff k hk).2 ⟨v, hv, huv ▸ he⟩)
  · -- the successor is another member
    have hu : u ∈ k.members := (h.mem_iff_mutual k hk v hv u).2 ⟨.of_edge he, hr⟩
    have hlen : ([u, v] : List Nat).length ≤ k.members.length :=
      (List.subperm_of_subset (by simpa using huv) (by simp [hu, hv])).length_le
    exact .inl hlen

/-- A component is a cycle if and only if a member of it leads back to itself. -/
theorem isCycle_iff (h : g.IsCondensation c) (hk : k ∈ c.components) :
    k.isCycle = true ↔ ∃ v ∈ k.members, g.DependsOn v v :=
  ⟨h.dependsOn_self hk, fun ⟨_, hv, hd⟩ => h.isCycle_of_dependsOn hk hv hd⟩

/-- A vertex leads to a component that is a cycle if and only if it leads to something that
    leads back to itself. -/
theorem exists_isCycle_iff (h : g.IsCondensation c) {r : Nat} :
    (∃ v, ∃ k ∈ c.components, g.Reaches r v ∧ c.componentOf? v = some k.id ∧ k.isCycle = true) ↔
      ∃ v, g.Reaches r v ∧ g.DependsOn v v := by
  constructor
  · rintro ⟨v, k, hk, hr, hplace, hcycle⟩
    have hv := (h.componentOf?_eq_id_iff hk).1 hplace
    obtain ⟨u, hu, hd⟩ := (h.isCycle_iff hk).1 hcycle
    exact ⟨u, hr.trans ((h.mem_iff_mutual k hk v hv u).1 hu).1, hd⟩
  · rintro ⟨v, hr, hd⟩
    obtain ⟨u, he, -⟩ := id hd
    obtain ⟨k, hk, hv⟩ := h.exists_component he.lt_size
    exact ⟨v, k, hk, hr, (h.componentOf?_eq_id_iff hk).2 hv, h.isCycle_of_dependsOn hk hv hd⟩

end Digraph.IsCondensation

/-! ## The check before generation -/

/-- The check fails if and only if there is a component that is a cycle. -/
theorem RuleSet.checkAcyclic_eq_error_iff (s : RuleSet) (c : Condensation) :
    (∃ fault, s.checkAcyclic c = .error fault) ↔ ∃ k ∈ c.components, k.isCycle = true := by
  rw [checkAcyclic, Condensation.cycle?]
  cases hfind : c.components.find? StrongComponent.isCycle with
  | none =>
      rw [List.find?_eq_none] at hfind
      refine iff_of_false ?_ ?_
      · rintro ⟨fault, hfault⟩
        cases hfault
      · rintro ⟨k, hk, hcycle⟩
        exact hfind k hk hcycle
  | some k => exact iff_of_true ⟨_, rfl⟩ ⟨k, List.mem_of_find?_eq_some hfind, List.find?_some hfind⟩

namespace Linked

variable {l : Linked} {r : RuleId}

theorem dependenciesInOrder_eq_ok_iff {order : List RuleId} :
    l.dependenciesInOrder r = .ok order ↔ l.graph.dependenciesInOrder? r = .ok order := by
  rw [dependenciesInOrder]
  cases l.graph.dependenciesInOrder? r with
  | ok order => simp
  | error cycle => simp

/-- Only a cycle stops the walk from a rule. -/
theorem dependenciesInOrder_eq_error_iff {fault : Fault} :
    l.dependenciesInOrder r = .error fault ↔
      ∃ cycle, l.graph.dependenciesInOrder? r = .error cycle
        ∧ fault = .cycle (cycle.map l.set.fullName) := by
  rw [dependenciesInOrder]
  cases l.graph.dependenciesInOrder? r with
  | ok order => simp
  | error cycle => simp [eq_comm]

/-- The walk from a rule breaks off if and only if it comes to a rule that leads back to
    itself. -/
theorem exists_dependenciesInOrder_error_iff (hg : l.graph.InRange) :
    (∃ fault, l.dependenciesInOrder r = .error fault) ↔
      ∃ v, l.graph.Reaches r v ∧ l.graph.DependsOn v v := by
  rw [← Digraph.dependenciesInOrder_eq_error_iff hg]
  constructor
  · rintro ⟨fault, hfault⟩
    obtain ⟨cycle, hcycle, -⟩ := dependenciesInOrder_eq_error_iff.1 hfault
    exact ⟨cycle, hcycle⟩
  · rintro ⟨cycle, hcycle⟩
    exact ⟨_, dependenciesInOrder_eq_error_iff.2 ⟨cycle, hcycle, rfl⟩⟩

end Linked

/-! ## Prepared rules -/

namespace Prepared

variable {α : Type} {results : List (Except Failure α)}

/-- Results without a panic and without a fault are all there. -/
theorem exists_ok_of_mem (hpanic : firstPanic? results = none) (hfault : firstFault? results = none)
    {x : Except Failure α} (hx : x ∈ results) : ∃ a, x = .ok a := by
  induction results with
  | nil => exact absurd hx List.not_mem_nil
  | cons y rest ih =>
      cases y with
      | ok a =>
          rcases List.mem_cons.1 hx with rfl | hx
          · exact ⟨a, rfl⟩
          · exact ih hpanic hfault hx
      | error failure =>
          cases failure with
          | fault fault => cases hfault
          | panicked message => cases hpanic

/-- When rules are prepared, each of them has been. -/
theorem ofLinked_eq_ok {p : Preparer} {l : Linked} {q : Prepared} (h : ofLinked p l = .ok q) :
    q.linked = l ∧ (∀ rule ∈ l.set.rules, ∃ resolved, p.prepareRule l rule = .ok resolved) ∧
      q.resolved = l.set.rules.map fun rule => (p.prepareRule l rule).toOption.getD default := by
  rw [ofLinked] at h
  cases hpanic : firstPanic? (l.set.byName.map (p.prepareRule l)) with
  | some message =>
      simp only [hpanic] at h
      cases h
  | none =>
      cases hfault : firstFault? (l.set.byName.map (p.prepareRule l)) with
      | some fault =>
          simp only [hpanic, hfault] at h
          cases h
      | none =>
          simp only [hpanic, hfault] at h
          cases howner : checkOwnership l.set
              (l.set.rules.map fun rule => (p.prepareRule l rule).toOption.getD default) with
          | error fault =>
              rw [howner] at h
              cases h
          | ok _ =>
              rw [howner] at h
              cases h
              refine ⟨rfl, fun rule hrule => exists_ok_of_mem hpanic hfault ?_, rfl⟩
              exact List.mem_map_of_mem (l.set.byName_perm.mem_iff.2 hrule)

/-- The walk from a prepared rule has not broken off. -/
theorem dependenciesInOrder_of_ofLinked {p : Preparer} {l : Linked} {q : Prepared}
    (hn : l.set.Numbered) (h : ofLinked p l = .ok q) {r : RuleId} (hr : r < l.set.rules.length) :
    ∃ order, l.dependenciesInOrder r = .ok order := by
  have hid : (l.set.rules[r]).id = r := id_eq_of_map_id hn (List.getElem?_eq_getElem hr)
  obtain ⟨resolved, hresolved⟩ := (ofLinked_eq_ok h).2.1 _ (List.getElem_mem hr)
  rw [Preparer.prepareRule, hid] at hresolved
  cases hwalk : l.dependenciesInOrder r with
  | ok order => exact ⟨order, rfl⟩
  | error fault =>
      rw [hwalk] at hresolved
      cases hresolved

end Prepared

namespace Linked

/-- **The two ways to find a cycle agree**: the walk from a rule fails, and then with a cycle,
    if and only if the rule leads to one whose component is a cycle.  So the check of the
    components fails if and only if the walk from some rule does, and once rules have been
    prepared it never fails: all files are collected, up to the first fault among them. -/
theorem cycle_checks_agree (l : Linked) (hn : l.set.Numbered) (hg : l.graph.InRange) :
    (∀ r, (∃ rules, l.dependenciesInOrder r = .error (.cycle rules)) ↔
        ∃ v, ∃ k ∈ l.condense.components, l.graph.Reaches r v
          ∧ l.condense.componentOf? v = some k.id ∧ k.isCycle = true)
      ∧ (∀ r fault, l.dependenciesInOrder r = .error fault → ∃ rules, fault = .cycle rules)
      ∧ ((∃ fault, l.set.checkAcyclic l.condense = .error fault) ↔
          ∃ r < l.graph.size, ∃ fault, l.dependenciesInOrder r = .error fault)
      ∧ ∀ p q, Prepared.ofLinked p l = .ok q →
          q.linked.set.checkAcyclic q.linked.condense = .ok ()
          ∧ ∀ session : Session, (session.emission q).compile q.linked.condense =
              ({} : GeneratedFiles).storeAll (session.emission q).items := by
  have h := l.isCondensation_condense hn hg
  have hcycle : ∀ r fault, l.dependenciesInOrder r = .error fault →
      ∃ rules, fault = .cycle rules := by
    intro r fault hfault
    obtain ⟨cycle, -, rfl⟩ := dependenciesInOrder_eq_error_iff.1 hfault
    exact ⟨_, rfl⟩
  have hcheck : (∃ fault, l.set.checkAcyclic l.condense = .error fault) ↔
      ∃ r < l.graph.size, ∃ fault, l.dependenciesInOrder r = .error fault := by
    rw [RuleSet.checkAcyclic_eq_error_iff]
    simp only [exists_dependenciesInOrder_error_iff hg]
    constructor
    · rintro ⟨k, hk, hc⟩
      obtain ⟨v, -, hd⟩ := (h.isCycle_iff hk).1 hc
      obtain ⟨u, he, -⟩ := id hd
      exact ⟨v, he.lt_size, v, .refl v, hd⟩
    · rintro ⟨r, -, hr⟩
      obtain ⟨v, k, hk, -, -, hc⟩ := h.exists_isCycle_iff.2 hr
      exact ⟨k, hk, hc⟩
  refine ⟨fun r => ?_, hcycle, hcheck, fun p q hq => ?_⟩
  · rw [h.exists_isCycle_iff, ← exists_dependenciesInOrder_error_iff hg]
    constructor
    · rintro ⟨rules, hrules⟩
      exact ⟨_, hrules⟩
    · rintro ⟨fault, hfault⟩
      obtain ⟨rules, rfl⟩ := hcycle r fault hfault
      exact ⟨rules, hfault⟩
  · obtain ⟨rfl, -⟩ := Prepared.ofLinked_eq_ok hq
    have hok : q.linked.set.checkAcyclic q.linked.condense = .ok () := by
      cases hresult : q.linked.set.checkAcyclic q.linked.condense with
      | ok _ => rfl
      | error fault =>
          -- a cycle would have stopped the walk from one of its rules
          obtain ⟨r, hr, fault', hfault⟩ := hcheck.1 ⟨fault, hresult⟩
          rw [q.linked.size_eq] at hr
          obtain ⟨order, horder⟩ := Prepared.dependenciesInOrder_of_ofLinked hn hq hr
          rw [hfault] at horder
          cases horder
    refine ⟨hok, fun session => ?_⟩
    have hcheck' : (session.emission q).prepared.linked.set.checkAcyclic q.linked.condense =
        .ok () := hok
    rw [Emission.compile, hcheck']

/-- A rule `app` that leads twice to a rule `base`, which depends on itself, and a rule
    `tool` that leads nowhere. -/
def sharedLoop : Linked where
  set := {
    rules := ["app", "left", "right", "base", "tool"].mapIdx fun id name =>
      { id, package := "pkg", declaration := { (default : Declaration) with name } }
    packages := [] }
  graph := ⟨[[1, 2], [3], [3], [3], []]⟩
  size_eq := rfl

/-- The loop is found from `app`, and so by the check; it is not found from `tool`. -/
theorem sharedLoop_found :
    sharedLoop.set.Numbered ∧ sharedLoop.graph.InRange
      ∧ (∃ v, ∃ k ∈ sharedLoop.condense.components, sharedLoop.graph.Reaches 0 v
          ∧ sharedLoop.condense.componentOf? v = some k.id ∧ k.isCycle = true)
      ∧ (∃ fault, sharedLoop.set.checkAcyclic sharedLoop.condense = .error fault)
      ∧ ¬ ∃ v, ∃ k ∈ sharedLoop.condense.components, sharedLoop.graph.Reaches 4 v
          ∧ sharedLoop.condense.componentOf? v = some k.id ∧ k.isCycle = true := by
  have hn : sharedLoop.set.Numbered := by decide
  have hg : sharedLoop.graph.InRange := by decide
  obtain ⟨hwalk, -, hcheck, -⟩ := cycle_checks_agree sharedLoop hn hg
  have happ : sharedLoop.dependenciesInOrder 0 =
      .error (.cycle ["pkg/base@", "pkg/base@"]) := by cbv
  have htool : sharedLoop.dependenciesInOrder 4 = .ok [] := by cbv
  refine ⟨hn, hg, (hwalk 0).1 ⟨_, happ⟩, hcheck.2 ⟨0, by decide, _, happ⟩, ?_⟩
  rw [← hwalk 4, htool]
  rintro ⟨rules, hrules⟩
  cases hrules

end Linked

end Buildwright
