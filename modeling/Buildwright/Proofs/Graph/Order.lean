import Buildwright.Graph.Order
import Buildwright.Proofs.Graph.Components

/-! # The order of components is that of their numbers

    A component depends on components of smaller number only.  So when the
    components below `m` are placed, `m` is ready and nothing less is, and it is
    placed next: the counters agree with what is placed after every component
    (`Placement.UpTo`), and the emission is the ascending list of all numbers.

    The vertices in this order are all vertices, and in a graph without cycles
    each stands behind everything that it depends on. -/

namespace Buildwright

variable {g : Digraph} {c : Condensation} {p : Placement}

/-! ## Releasing dependents -/

namespace Placement

theorem remaining_release (p : Placement) (d i : Nat) :
    (p.release d).remaining[i]? =
      if i = d then p.remaining[i]?.map (· - 1) else p.remaining[i]? := by
  rw [release]
  by_cases hi : i = d
  · subst hi
    rw [if_pos rfl]
    cases hr : p.remaining[i]? with
    | none => exact hr
    | some n =>
        have hlt : i < p.remaining.length := (List.getElem?_eq_some_iff.1 hr).1
        exact List.getElem?_set_self hlt
  · rw [if_neg hi]
    cases p.remaining[d]? with
    | none => rfl
    | some n => exact List.getElem?_set_ne (fun h => hi h.symm)

theorem mem_ready_release (p : Placement) (d i : Nat) :
    i ∈ (p.release d).ready ↔ i ∈ p.ready ∨ i = d ∧ ∃ n, p.remaining[d]? = some n ∧ n - 1 = 0 := by
  rw [release]
  cases hr : p.remaining[d]? with
  | none => simp
  | some n =>
      by_cases hn : n - 1 = 0
      · simp [hn, or_comm]
      · simp [hn]

theorem placed_release (p : Placement) (d : Nat) : (p.release d).placed = p.placed := by
  rw [release]
  cases p.remaining[d]? <;> rfl

/-- Releasing each of some components once. -/
theorem foldl_release {ds : List Nat} (hds : ds.Nodup) (p : Placement) :
    (ds.foldl release p).placed = p.placed
      ∧ (∀ i, (ds.foldl release p).remaining[i]? =
          if i ∈ ds then p.remaining[i]?.map (· - 1) else p.remaining[i]?)
      ∧ ∀ i, i ∈ (ds.foldl release p).ready ↔
          i ∈ p.ready ∨ i ∈ ds ∧ ∃ n, p.remaining[i]? = some n ∧ n - 1 = 0 := by
  induction ds generalizing p with
  | nil => simp
  | cons d ds ih =>
      obtain ⟨hd, hds⟩ := List.nodup_cons.1 hds
      obtain ⟨h1, h2, h3⟩ := ih hds (p.release d)
      refine ⟨h1.trans (placed_release p d), fun i => ?_, fun i => ?_⟩
      · rw [List.foldl_cons, h2, remaining_release]
        by_cases hi : i = d
        · subst hi
          simp [hd]
        · simp [hi]
      · rw [List.foldl_cons, h3, mem_ready_release, remaining_release]
        by_cases hi : i = d
        · subst hi
          simp [hd]
        · simp [hi]

/-- Components that are not ready become so at most once each. -/
theorem nodup_ready_foldl {ds : List Nat} (hds : ds.Nodup) {p : Placement} (hp : p.ready.Nodup)
    (hnew : ∀ d ∈ ds, d ∉ p.ready) : (ds.foldl release p).ready.Nodup := by
  induction ds generalizing p with
  | nil => exact hp
  | cons d ds ih =>
      obtain ⟨hd, hds⟩ := List.nodup_cons.1 hds
      refine ih hds ?_ fun i hi => ?_
      · rw [release]
        cases p.remaining[d]? with
        | none => exact hp
        | some n =>
            show (if n - 1 = 0 then d :: p.ready else p.ready).Nodup
            split
            · exact List.nodup_cons.2 ⟨hnew d (List.mem_cons_self ..), hp⟩
            · exact hp
      · rw [mem_ready_release]
        rintro (h | ⟨rfl, -⟩)
        · exact hnew i (List.mem_cons_of_mem _ hi) h
        · exact hd hi

end Placement

/-! ## Counting what is not placed -/

theorem countP_le_eq {l : List Nat} (hl : l.Nodup) (m : Nat) :
    l.countP (m ≤ ·) = l.countP (m + 1 ≤ ·) + if m ∈ l then 1 else 0 := by
  induction l with
  | nil => rfl
  | cons d l ih =>
      obtain ⟨hd, hl⟩ := List.nodup_cons.1 hl
      have := ih hl
      simp only [List.countP_cons, List.mem_cons, decide_eq_true_eq]
      by_cases hm : m = d
      · subst hm
        simp only [hd, if_false] at this
        simp [this]
      · by_cases hml : m ∈ l
        · simp only [hml, if_true, or_true] at this ⊢
          split <;> split <;> omega
        · simp only [hml, hm, or_self, if_false] at this ⊢
          split <;> split <;> omega

/-- Nothing is left to be placed when everything is below `m`. -/
theorem countP_le_eq_zero_iff {l : List Nat} {m : Nat} :
    l.countP (m ≤ ·) = 0 ↔ ∀ d ∈ l, d < m := by
  simp [List.countP_eq_zero]

/-- The placement when exactly the components below `m` are placed. -/
structure Placement.UpTo (c : Condensation) (m : Nat) (p : Placement) : Prop where
  placed : p.placed = (List.range m).reverse
  remaining : ∀ (i : Nat) (k : StrongComponent), c.components[i]? = some k →
    p.remaining[i]? = some (k.dependsOn.countP (m ≤ ·))
  ready : ∀ i, i ∈ p.ready ↔
    m ≤ i ∧ ∃ k, c.components[i]? = some k ∧ ∀ d ∈ k.dependsOn, d < m
  nodup : p.ready.Nodup

namespace Digraph.IsCondensation

theorem map_id (h : g.IsCondensation c) :
    c.components.map StrongComponent.id = List.range c.components.length := by
  refine List.ext_getElem? fun i => ?_
  rw [List.getElem?_map]
  cases hk : c.components[i]? with
  | some k =>
      rw [List.getElem?_range (List.getElem?_eq_some_iff.1 hk).1]
      exact congrArg some (h.id_eq i k hk)
  | none =>
      have := List.getElem?_eq_none_iff.1 hk
      rw [List.getElem?_eq_none (by simpa using this)]
      rfl

/-- The numbers of some of the components, each once. -/
theorem nodup_ids_filter (h : g.IsCondensation c) (q : StrongComponent → Bool) :
    ((c.components.filter q).map StrongComponent.id).Nodup := by
  have hids : (c.components.map StrongComponent.id).Nodup := by
    rw [h.map_id]
    exact List.nodup_range
  exact hids.sublist (List.filter_sublist.map _)

theorem mem_ids_filter_iff (h : g.IsCondensation c) {q : StrongComponent → Bool} {i : Nat} :
    i ∈ (c.components.filter q).map StrongComponent.id ↔
      ∃ k, c.components[i]? = some k ∧ q k = true := by
  simp only [List.mem_map, List.mem_filter]
  constructor
  · rintro ⟨k, ⟨hk, hq⟩, rfl⟩
    exact ⟨k, h.getElem?_id hk, hq⟩
  · rintro ⟨k, hk, hq⟩
    exact ⟨k, ⟨List.mem_of_getElem? hk, hq⟩, h.id_eq i k hk⟩

/-- Of components that are in order of their numbers, one has another as dependency at
    most once. -/
theorem nodup_dependsOn (h : g.IsCondensation c) {k : StrongComponent} (hk : k ∈ c.components) :
    k.dependsOn.Nodup :=
  (h.ascending k hk).imp fun hlt => Nat.ne_of_lt hlt

/-! ## Placing the components -/

/-- At the beginning nothing is placed. -/
theorem upTo_firstPlacement (h : g.IsCondensation c) : c.firstPlacement.UpTo c 0 where
  placed := rfl
  remaining := by
    intro i k hk
    have hall : k.dependsOn.countP (0 ≤ ·) = k.dependsOn.length :=
      List.countP_eq_length.2 fun d _ => by simp
    simp only [Condensation.firstPlacement, List.getElem?_map, hk, Option.map_some, hall]
  ready := by
    intro i
    rw [Condensation.firstPlacement, h.mem_ids_filter_iff]
    constructor
    · rintro ⟨k, hk, he⟩
      refine ⟨Nat.zero_le i, k, hk, fun d hd => ?_⟩
      rw [List.isEmpty_iff.1 he] at hd
      exact absurd hd List.not_mem_nil
    · rintro ⟨-, k, hk, hd⟩
      refine ⟨k, hk, List.isEmpty_iff.2 (List.eq_nil_iff_forall_not_mem.2 fun d hm => ?_)⟩
      exact Nat.not_lt_zero d (hd d hm)
  nodup := h.nodup_ids_filter _

theorem mem_dependents_iff (h : g.IsCondensation c) {m i : Nat} :
    i ∈ c.dependents m ↔ ∃ k, c.components[i]? = some k ∧ m ∈ k.dependsOn := by
  rw [Condensation.dependents, h.mem_ids_filter_iff]
  simp only [decide_eq_true_eq]

/-- Placing `m` leaves one dependency less to its dependents, and to no others. -/
theorem countP_dependsOn (h : g.IsCondensation c) {m i : Nat} {k : StrongComponent}
    (hk : c.components[i]? = some k) :
    k.dependsOn.countP (m ≤ ·)
      = k.dependsOn.countP (m + 1 ≤ ·) + if i ∈ c.dependents m then 1 else 0 := by
  have hiff : m ∈ k.dependsOn ↔ i ∈ c.dependents m := by
    rw [h.mem_dependents_iff]
    constructor
    · intro hd
      exact ⟨k, hk, hd⟩
    · rintro ⟨k', hk', hd⟩
      rw [hk] at hk'
      cases hk'
      exact hd
  rw [countP_le_eq (h.nodup_dependsOn (List.mem_of_getElem? hk)) m]
  simp only [hiff]

/-- When the components below `m` are placed, `m` is the least one that is ready. -/
theorem min?_ready (h : g.IsCondensation c) {m : Nat} (hm : m < c.components.length)
    (hp : p.UpTo c m) : p.ready.min? = some m := by
  refine List.min?_eq_some_iff.2 ⟨?_, fun i hi => ((hp.ready i).1 hi).1⟩
  refine (hp.ready m).2 ⟨Nat.le_refl m, _, List.getElem?_eq_getElem hm, fun d hd => ?_⟩
  have hlt := h.dependsOn_lt _ (List.getElem_mem hm) d hd
  rwa [h.id_eq m _ (List.getElem?_eq_getElem hm)] at hlt

/-- When the components below `m` are placed, `m` is placed next. -/
theorem upTo_placeNext (h : g.IsCondensation c) {m : Nat} (hm : m < c.components.length)
    (hp : p.UpTo c m) : (c.placeNext p).UpTo c (m + 1) := by
  have hds : (c.dependents m).Nodup := h.nodup_ids_filter _
  -- no dependent of `m` can be ready while `m` is not placed
  have hnew : ∀ i ∈ c.dependents m, i ∉ p.ready.erase m := by
    intro i hi hr
    obtain ⟨k, hk, hmk⟩ := h.mem_dependents_iff.1 hi
    obtain ⟨-, k', hk', hlt⟩ := (hp.ready i).1 (List.mem_of_mem_erase hr)
    rw [hk] at hk'
    cases hk'
    exact absurd (hlt m hmk) (Nat.lt_irrefl m)
  obtain ⟨h1, h2, h3⟩ := Placement.foldl_release hds
    { p with ready := p.ready.erase m, placed := m :: p.placed }
  rw [Condensation.placeNext, h.min?_ready hm hp]
  refine ⟨?_, fun i k hk => ?_, fun i => ?_, ?_⟩
  · rw [h1, List.range_succ, List.reverse_append]
    exact congrArg (m :: ·) hp.placed
  · rw [h2]
    have hi := hp.remaining i k hk
    have hc := h.countP_dependsOn (m := m) hk
    by_cases hd : i ∈ c.dependents m
    · rw [if_pos hd] at hc ⊢
      simp only [hi, Option.map_some]
      exact congrArg some (by omega)
    · rw [if_neg hd] at hc ⊢
      simp only [hi]
      exact congrArg some (by omega)
  · rw [h3, hp.nodup.mem_erase_iff, hp.ready]
    constructor
    · rintro (⟨hne, hle, k, hk, hlt⟩ | ⟨hd, n, hn, hz⟩)
      · exact ⟨by omega, k, hk, fun d hd => Nat.lt_succ_of_lt (hlt d hd)⟩
      · -- released by `m`
        obtain ⟨k, hk, hmk⟩ := h.mem_dependents_iff.1 hd
        have hc := h.countP_dependsOn (m := m) hk
        rw [if_pos hd] at hc
        simp only [hp.remaining i k hk, Option.some.injEq] at hn
        refine ⟨?_, k, hk, countP_le_eq_zero_iff.1 (by omega)⟩
        have hlt := h.dependsOn_lt k (List.mem_of_getElem? hk) m hmk
        rw [h.id_eq i k hk] at hlt
        omega
    · rintro ⟨hle, k, hk, hlt⟩
      have hc := h.countP_dependsOn (m := m) hk
      rw [countP_le_eq_zero_iff.2 hlt] at hc
      by_cases hd : i ∈ c.dependents m
      · rw [if_pos hd] at hc
        refine .inr ⟨hd, _, hp.remaining i k hk, ?_⟩
        omega
      · rw [if_neg hd] at hc
        exact .inl ⟨by omega, by omega, k, hk, countP_le_eq_zero_iff.1 hc⟩
  · exact Placement.nodup_ready_foldl hds (hp.nodup.erase m) hnew

/-- After `m` rounds exactly the components below `m` are placed. -/
theorem upTo_place (h : g.IsCondensation c) :
    ∀ m ≤ c.components.length, (c.place m).UpTo c m
  | 0, _ => h.upTo_firstPlacement
  | m + 1, hm => h.upTo_placeNext hm (h.upTo_place m (Nat.le_of_succ_le hm))

/-- The components are emitted in the order of their numbers. -/
theorem emission_eq_range (h : g.IsCondensation c) :
    c.emission = List.range c.components.length := by
  rw [Condensation.emission, (h.upTo_place _ (Nat.le_refl _)).placed, List.reverse_reverse]

/-- When every component has had its round, none is ready any more. -/
theorem ready_place_eq_nil (h : g.IsCondensation c) :
    (c.place c.components.length).ready = [] := by
  refine List.eq_nil_iff_forall_not_mem.2 fun i hi => ?_
  obtain ⟨hle, k, hk, -⟩ := ((h.upTo_place _ (Nat.le_refl _)).ready i).1 hi
  exact absurd (List.getElem?_eq_some_iff.1 hk).1 (Nat.not_lt.2 hle)

/-! ## Vertices in order -/

/-- A walk from a component ends in one whose number is not greater. -/
theorem le_of_reaches (h : g.IsCondensation c) (hg : g.InRange) {k : StrongComponent}
    (hk : k ∈ c.components) {v w : Nat} (hv : v ∈ k.members) (hr : g.Reaches v w) :
    ∃ k' ∈ c.components, w ∈ k'.members ∧ k'.id ≤ k.id := by
  refine hr.mem_of_closed (P := fun x => ∃ k' ∈ c.components, x ∈ k'.members ∧ k'.id ≤ k.id) ?_
    ⟨k, hk, hv, Nat.le_refl _⟩
  rintro x y ⟨k₁, hk₁, hx, hle⟩ he
  obtain ⟨k₂, hk₂, hy⟩ := h.exists_component (hg.edge_lt he)
  refine ⟨k₂, hk₂, hy, Nat.le_trans ?_ hle⟩
  by_cases hid : k₂.id = k₁.id
  · exact Nat.le_of_eq hid
  · refine Nat.le_of_lt (h.dependsOn_lt k₁ hk₁ k₂.id ((h.dependsOn_iff k₁ hk₁ _).2 ?_))
    exact ⟨hid, x, hx, y, he, (h.componentOf?_eq_id_iff hk₂).2 hy⟩

/-- In a graph without cycles, what a vertex depends on is in a component of smaller
    number. -/
theorem lt_of_dependsOn (h : g.IsCondensation c) (hg : g.InRange) (ha : g.Acyclic)
    {k : StrongComponent} (hk : k ∈ c.components) {v w : Nat} (hv : v ∈ k.members)
    (hd : g.DependsOn v w) : ∃ k' ∈ c.components, w ∈ k'.members ∧ k'.id < k.id := by
  obtain ⟨u, he, hr⟩ := hd
  obtain ⟨k', hk', hw, hle⟩ := h.le_of_reaches hg hk hv (.step he hr)
  refine ⟨k', hk', hw, Nat.lt_of_le_of_ne hle fun hid => ?_⟩
  -- otherwise `v` and `w` lead to each other, and `v` depends on itself
  have hsame : k' = k := by
    have h1 := h.getElem?_id hk'
    rw [hid, h.getElem?_id hk] at h1
    exact (Option.some.inj h1).symm
  rw [hsame] at hw
  have hm := (h.mem_iff_mutual k hk v hv w).1 hw
  exact ha v ⟨u, he, hr.trans hm.2⟩

end Digraph.IsCondensation

theorem flatMap_range_getElem? {α β : Type} (l : List α) (f : α → List β) :
    (List.range l.length).flatMap (fun i => (l[i]?.map f).getD []) = l.flatMap f := by
  induction l with
  | nil => rfl
  | cons a l ih =>
      rw [List.length_cons, List.range_succ_eq_map, List.flatMap_cons, List.flatMap_map,
        List.flatMap_cons]
      exact congrArg (f a ++ ·) ih

/-- The vertices of all components in the order of their numbers. -/
theorem Condensation.vertices_range (c : Condensation) :
    c.vertices (List.range c.components.length)
      = c.components.flatMap StrongComponent.members :=
  flatMap_range_getElem? c.components StrongComponent.members

/-- In a list without repetition, what an earlier part gives comes before what a later
    part gives. -/
theorem idxOf_flatMap_lt {α : Type} {l : List α} {f : α → List Nat} (hl : (l.flatMap f).Nodup)
    {i j : Nat} {a b : α} (hj : l[j]? = some b) (hi : l[i]? = some a) (hji : j < i) {v w : Nat}
    (hv : v ∈ f a) (hw : w ∈ f b) : (l.flatMap f).idxOf w < (l.flatMap f).idxOf v := by
  have hsplit : l.flatMap f = (l.take i).flatMap f ++ (l.drop i).flatMap f := by
    rw [← List.flatMap_append, List.take_append_drop]
  have hwm : w ∈ (l.take i).flatMap f := by
    refine List.mem_flatMap.2 ⟨b, List.mem_of_getElem? (i := j) ?_, hw⟩
    rw [List.getElem?_take_of_lt hji]
    exact hj
  have hvm : v ∈ (l.drop i).flatMap f := by
    refine List.mem_flatMap.2 ⟨a, List.mem_of_getElem? (i := 0) ?_, hv⟩
    rw [List.getElem?_drop, Nat.add_zero]
    exact hi
  have hvn : v ∉ (l.take i).flatMap f := by
    rw [hsplit] at hl
    exact fun hm => (List.nodup_append.1 hl).2.2 v hm v hvm rfl
  rw [hsplit, List.idxOf_append_of_mem hwm, List.idxOf_append_of_notMem hvn]
  exact Nat.lt_of_lt_of_le (List.idxOf_lt_length_of_mem hwm) (Nat.le_add_right ..)

/-! ## The order of emission of linked rules -/

namespace Linked

/-- **The order of emission**: every component is emitted once, behind all that it depends
    on, and the order is that of the numbers; no component is left over.  Without cycles, the
    rules in this order are all rules, each behind everything it depends on. -/
theorem condense_emission (l : Linked) (hn : l.set.Numbered) (hg : l.graph.InRange) :
    l.condense.emission = List.range l.condense.components.length
      ∧ (l.condense.place l.condense.components.length).ready = []
      ∧ (∀ k ∈ l.condense.components, l.condense.emission.count k.id = 1
          ∧ ∀ d ∈ k.dependsOn, l.condense.emission.idxOf d < l.condense.emission.idxOf k.id)
      ∧ (l.graph.Acyclic →
          (l.condense.vertices l.condense.emission).Perm l.graph.vertices
          ∧ ∀ v w, l.graph.DependsOn v w →
              (l.condense.vertices l.condense.emission).idxOf w
                < (l.condense.vertices l.condense.emission).idxOf v) := by
  have h := l.isCondensation_condense hn hg
  have hlt : ∀ k ∈ l.condense.components, k.id < l.condense.components.length := fun k hk =>
    (List.getElem?_eq_some_iff.1 (h.getElem?_id hk)).1
  refine ⟨h.emission_eq_range, h.ready_place_eq_nil, fun k hk => ?_, fun ha => ?_⟩
  · rw [h.emission_eq_range]
    refine ⟨List.count_eq_one_of_mem List.nodup_range (List.mem_range.2 (hlt k hk)),
      fun d hd => ?_⟩
    have hdk := h.dependsOn_lt k hk d hd
    have hidx : ∀ i < l.condense.components.length,
        (List.range l.condense.components.length).idxOf i = i := by
      intro i hi
      have := List.nodup_range.idxOf_getElem i (by simpa using hi)
      simpa using this
    rw [hidx d (Nat.lt_trans hdk (hlt k hk)), hidx k.id (hlt k hk)]
    exact hdk
  · rw [h.emission_eq_range, Condensation.vertices_range]
    refine ⟨h.members_perm, fun v w hd => ?_⟩
    obtain ⟨u, he, hr⟩ := id hd
    obtain ⟨k, hk, hv⟩ := h.exists_component he.lt_size
    obtain ⟨k', hk', hw, hid⟩ := h.lt_of_dependsOn hg ha hk hv hd
    exact idxOf_flatMap_lt (h.members_perm.nodup_iff.2 List.nodup_range) (h.getElem?_id hk')
      (h.getElem?_id hk) hid hv hw

/-- Three rules, each of which depends on the next one. -/
def chain : Linked where
  set := {
    rules := ["app", "net", "base"].mapIdx fun id name =>
      { id, package := "pkg", declaration := { (default : Declaration) with name } }
    packages := [] }
  graph := ⟨[[1], [2], []]⟩
  size_eq := rfl

/-- The last rule of the chain is emitted before the first one, which depends on it
    through another. -/
theorem chain_emission :
    chain.set.Numbered ∧ chain.graph.InRange ∧ chain.graph.Acyclic
      ∧ (chain.condense.vertices chain.condense.emission).idxOf 2
        < (chain.condense.vertices chain.condense.emission).idxOf 0 := by
  have hn : chain.set.Numbered := by decide
  have hg : chain.graph.InRange := by decide
  have hup : ∀ v w, chain.graph.Edge v w → v < w := by
    intro v w he
    have hall : ∀ v < 3, ∀ w ∈ chain.graph.next v, v < w := by decide
    exact hall v he.lt_size w he
  have ha : chain.graph.Acyclic := by
    rintro v ⟨u, he, hr⟩
    have := hr.mem_of_closed (P := (v < ·)) (fun x y hx he => Nat.lt_trans hx (hup x y he))
      (hup v u he)
    exact Nat.lt_irrefl v this
  have h := condense_emission chain hn hg
  exact ⟨hn, hg, ha, (h.2.2.2 ha).2 0 2 ⟨1, by decide, .of_edge (by decide)⟩⟩

end Linked

end Buildwright
