import Buildwright.Proofs.Graph.Components
import Buildwright.Proofs.Renumbering.Walk
import Mathlib.Data.List.Sort

/-! # Components of a renumbered graph

    The search for strong components reads numbers of vertices only to tell
    vertices apart, so it runs alike on a renumbered graph: every step of one
    search is the renumbered step of the other.  The edges are noted in another
    order, but what a condensation knows of them (`Condensation.Knows`) does not
    depend on it.  The numbers of the components are not touched, and neither is
    the order in which they are emitted.

    * `LowLink.step_renumber`, `LowLink.run_renumber` — the search;
    * `Digraph.condense_renumber` — the components;
    * `Condensation.emission_renumber` — their order. -/

namespace Buildwright

variable {σ : Equiv.Perm Nat} {g g' : Digraph}

/-- The frame with renumbered vertices. -/
def Frame.renumber (σ : Nat → Nat) (f : Frame) : Frame where
  vertex := σ f.vertex
  low := f.low
  rest := f.rest.map σ

namespace LowLink

/-- The records with renumbered vertices. -/
def renumber (σ : Nat → Nat) (s : LowLink) : LowLink where
  frames := s.frames.map (Frame.renumber σ)
  numbers := s.numbers.map fun e => (σ e.1, e.2)
  stack := s.stack.map σ
  closed := s.closed.map (List.map σ)
  places := s.places.map fun e => (σ e.1, e.2)

theorem number?_renumber (s : LowLink) (v : Nat) :
    (s.renumber σ).number? (σ v) = s.number? v :=
  lookup_map_keys σ.injective s.numbers v

theorem enter_renumber (h : g.Renumbers σ g') (s : LowLink) (v : Nat) :
    (s.renumber σ).enter g' (σ v) = (s.enter g v).renumber σ := by
  simp [enter, renumber, Frame.renumber, h.next]

theorem close_renumber (s : LowLink) (v : Nat) :
    (s.renumber σ).close (σ v) = (s.close v).renumber σ := by
  have htake : (s.stack.map σ).takeWhile (fun w => decide (w ≠ σ v)) =
      (s.stack.takeWhile fun w => decide (w ≠ v)).map σ := by
    rw [List.takeWhile_map, decide_ne_comp]
  have hdrop : (s.stack.map σ).dropWhile (fun w => decide (w ≠ σ v)) =
      (s.stack.dropWhile fun w => decide (w ≠ v)).map σ := by
    rw [List.dropWhile_map, decide_ne_comp]
  simp only [close, renumber, htake, hdrop, List.map_drop, List.map_cons, List.map_reverse,
    List.map_append, List.map_map, List.length_map, Function.comp_def]

theorem inherit_renumber (low : Nat) (fs : List Frame) :
    inherit low (fs.map (Frame.renumber σ)) = (inherit low fs).map (Frame.renumber σ) := by
  cases fs with
  | nil => rfl
  | cons f fs => rfl

theorem leave_renumber (s : LowLink) (f : Frame) (fs : List Frame) :
    (s.renumber σ).leave (f.renumber σ) (fs.map (Frame.renumber σ)) =
      (s.leave f fs).renumber σ := by
  have hleft : { s.renumber σ with
      frames := inherit (f.renumber σ).low (fs.map (Frame.renumber σ)) } =
        ({ s with frames := inherit f.low fs } : LowLink).renumber σ := by
    rw [inherit_renumber]
    rfl
  have hvertex : (f.renumber σ).vertex = σ f.vertex := rfl
  have hlow : (f.renumber σ).low = f.low := rfl
  rw [leave, hleft, leave, hvertex, hlow, number?_renumber]
  split
  · exact close_renumber _ f.vertex
  · rfl

theorem follow_renumber (h : g.Renumbers σ g') (s : LowLink) (f : Frame) (fs : List Frame)
    (w : Nat) :
    (s.renumber σ).follow g' (f.renumber σ) (fs.map (Frame.renumber σ)) (σ w) =
      (s.follow g f fs w).renumber σ := by
  rw [follow, follow, number?_renumber]
  cases s.number? w with
  | none =>
      by_cases hw : w < g.size
      · simp only [if_pos hw, if_pos (h.lt_size_iff.2 hw)]
        exact enter_renumber h { s with frames := f :: fs } w
      · simp only [if_neg hw, if_neg (mt h.lt_size_iff.1 hw)]
        rfl
  | some number =>
      have hmem : σ w ∈ (s.renumber σ).stack ↔ w ∈ s.stack := List.mem_map_of_injective σ.injective
      by_cases hw : w ∈ s.stack
      · simp only [if_pos hw, if_pos (hmem.2 hw)]
        rfl
      · simp only [if_neg hw, if_neg (mt hmem.1 hw)]
        rfl

/-- Every step of the search is taken alike. -/
theorem step_renumber (h : g.Renumbers σ g') (s : LowLink) :
    (s.renumber σ).step g' = (s.step g).renumber σ := by
  have hframes : (s.renumber σ).frames = s.frames.map (Frame.renumber σ) := rfl
  rw [step, step, hframes]
  cases s.frames with
  | nil => rfl
  | cons f fs =>
      have hrest : (f.renumber σ).rest = f.rest.map σ := rfl
      simp only [List.map_cons, hrest]
      cases f.rest with
      | nil => exact leave_renumber s f fs
      | cons w ws => exact follow_renumber h s { f with rest := ws } fs w

theorem run_renumber (h : g.Renumbers σ g') (s : LowLink) :
    (s.renumber σ).run g' = (s.run g).renumber σ := by
  have hframes : ∀ s : LowLink, (s.renumber σ).frames = [] ↔ s.frames = [] := fun s =>
    List.map_eq_nil_iff
  fun_induction LowLink.run g s with
  | case1 s hdone =>
      rw [run, if_pos ((hframes s).2 hdone)]
  | case2 s hmore ih =>
      rw [run, if_neg (mt (hframes s).1 hmore), step_renumber h]
      exact ih

theorem visit_renumber (h : g.Renumbers σ g') (s : LowLink) (root : Nat) :
    (s.renumber σ).visit g' (σ root) = (s.visit g root).renumber σ := by
  have hiff : s.number? root = none ∧ σ root < g'.size ↔ s.number? root = none ∧ root < g.size :=
    and_congr_right fun _ => h.lt_size_iff
  rw [visit, visit, number?_renumber]
  by_cases hnew : s.number? root = none ∧ root < g.size
  · rw [if_pos hnew, if_pos (hiff.2 hnew), enter_renumber h, run_renumber h]
  · rw [if_neg hnew, if_neg (mt hiff.1 hnew)]

end LowLink

theorem Digraph.lowLink_renumber (h : g.Renumbers σ g') (roots : List Nat) :
    g'.lowLink (roots.map σ) = (g.lowLink roots).renumber σ := by
  have hfoldl : ∀ s : LowLink, (roots.map σ).foldl (LowLink.visit g') (s.renumber σ) =
      (roots.foldl (LowLink.visit g) s).renumber σ := by
    intro s
    induction roots generalizing s with
    | nil => rfl
    | cons root rest ih =>
        rw [List.map_cons, List.foldl_cons, List.foldl_cons, LowLink.visit_renumber h]
        exact ih (s.visit g root)
  exact hfoldl {}

/-! ## Components -/

attribute [ext] StrongComponent Condensation

/-- The component with renumbered members. -/
def StrongComponent.renumber (σ : Nat → Nat) (k : StrongComponent) : StrongComponent :=
  { k with members := k.members.map σ }

namespace Condensation

/-- The components with renumbered vertices. -/
def renumber (σ : Nat → Nat) (c : Condensation) : Condensation where
  components := c.components.map (StrongComponent.renumber σ)
  places := c.places.map fun e => (σ e.1, e.2)

theorem componentOf?_renumber (c : Condensation) (v : Nat) :
    (c.renumber σ).componentOf? (σ v) = c.componentOf? v :=
  lookup_map_keys σ.injective c.places v

end Condensation

theorem LowLink.condensation_renumber (s : LowLink) :
    (s.renumber σ).condensation = s.condensation.renumber σ := by
  have hclosed : (s.closed.map (List.map σ)).reverse.mapIdx
        (fun id members => ({ id, members } : StrongComponent)) =
      (s.closed.reverse.mapIdx fun id members => ({ id, members } : StrongComponent)).map
        (StrongComponent.renumber σ) := by
    refine List.ext_getElem? fun i => ?_
    rw [List.getElem?_mapIdx, List.getElem?_map, List.getElem?_mapIdx, ← List.map_reverse,
      List.getElem?_map, Option.map_map, Option.map_map]
    rfl
  rw [condensation, condensation, Condensation.renumber, ← hclosed]
  rfl

/-! ## Edges -/

theorem Digraph.Renumbers.mem_edges_iff (h : g.Renumbers σ g') {v w : Nat} :
    (σ v, σ w) ∈ g'.edges ↔ (v, w) ∈ g.edges := by
  rw [Digraph.mem_edges_iff, Digraph.mem_edges_iff, Digraph.Edge, Digraph.Edge, h.next,
    List.mem_map_of_injective σ.injective]

namespace Condensation

/-- Components that know the edges of both graphs know the same. -/
theorem Knows.renumber_eq (h : g.Renumbers σ g') {c : Condensation} {i : Nat}
    {k k' : StrongComponent} (hk : c.Knows i g.edges k) (hk' : (c.renumber σ).Knows i g'.edges k') :
    k'.dependsOn = k.dependsOn ∧ k'.selfLoop = k.selfLoop := by
  -- an edge of the renumbered graph is the renumbering of one edge
  have hedges : ∀ P : Nat × Nat → Prop,
      (∃ e ∈ g'.edges, P e) ↔ ∃ e ∈ g.edges, P (σ e.1, σ e.2) := by
    intro P
    constructor
    · rintro ⟨⟨v, w⟩, he, hP⟩
      rw [← σ.apply_symm_apply v, ← σ.apply_symm_apply w] at he hP
      exact ⟨(σ.symm v, σ.symm w), h.mem_edges_iff.1 he, hP⟩
    · rintro ⟨e, he, hP⟩
      exact ⟨(σ e.1, σ e.2), h.mem_edges_iff.2 he, hP⟩
  constructor
  · refine hk'.ascending.eq_of_mem_iff hk.ascending fun d => ?_
    rw [hk'.dependsOn, hk.dependsOn, hedges]
    simp only [componentOf?_renumber]
  · rw [Bool.eq_iff_iff, hk'.selfLoop, hk.selfLoop, hedges]
    simp only [componentOf?_renumber, σ.injective.eq_iff]

/-- Noting the edges of both graphs gives the same components. -/
theorem Noted.renumber_eq (h : g.Renumbers σ g') {c d d' : Condensation}
    (hd : c.Noted g.edges d) (hd' : (c.renumber σ).Noted g'.edges d') : d' = d.renumber σ := by
  have hcomponents : d'.components = d.components.map (StrongComponent.renumber σ) := by
    have hlen : d'.components.length = d.components.length := by
      rw [hd'.length, hd.length]
      exact List.length_map _
    refine List.ext_getElem (hlen.trans (List.length_map _).symm) fun i hi hi' => ?_
    rw [List.getElem_map]
    obtain ⟨hknows, k₀, hk₀, hid, hm⟩ := hd.component i _ (List.getElem?_eq_getElem (hlen ▸ hi))
    obtain ⟨hknows', k₁, hk₁, hid', hm'⟩ := hd'.component i _ (List.getElem?_eq_getElem hi)
    have hk₁' : k₁ = k₀.renumber σ := by
      rw [renumber, List.getElem?_map, hk₀] at hk₁
      exact (Option.some.inj hk₁).symm
    obtain ⟨hdepends, hloop⟩ := hknows.renumber_eq h hknows'
    have hid'' : (d'.components[i]).id = (d.components[i]).id := by
      rw [hid', hid, hk₁']
      rfl
    have hm'' : (d'.components[i]).members = (d.components[i]).members.map σ := by
      rw [hm', hm, hk₁']
      rfl
    exact StrongComponent.ext hid'' hm'' hdepends hloop
  have hplaces : d'.places = d.places.map fun e => (σ e.1, e.2) := by
    rw [hd'.places, hd.places]
    rfl
  exact Condensation.ext hcomponents hplaces

end Condensation

namespace Digraph

/-- The components are found alike, whatever the numbers of the vertices. -/
theorem condense_renumber (h : g.Renumbers σ g') (roots : List Nat) :
    g'.condense (roots.map σ) = (g.condense roots).renumber σ := by
  have hnoted := noted_condense g' (roots.map σ)
  rw [lowLink_renumber h, LowLink.condensation_renumber] at hnoted
  exact (noted_condense g roots).renumber_eq h hnoted

end Digraph

/-! ## Order of components -/

namespace Condensation

theorem dependents_renumber (c : Condensation) (id : Nat) :
    (c.renumber σ).dependents id = c.dependents id := by
  rw [dependents, renumber, List.filter_map, List.map_map]
  rfl

theorem firstPlacement_renumber (c : Condensation) :
    (c.renumber σ).firstPlacement = c.firstPlacement := by
  rw [firstPlacement, renumber, List.map_map, List.filter_map, List.map_map]
  rfl

theorem place_renumber (c : Condensation) (n : Nat) : (c.renumber σ).place n = c.place n := by
  induction n with
  | zero => exact firstPlacement_renumber c
  | succ n ih => rw [place, place, ih, placeNext, placeNext]; simp only [dependents_renumber]

/-- The numbers of vertices do not matter to the order of the components. -/
theorem emission_renumber (c : Condensation) : (c.renumber σ).emission = c.emission := by
  have hlen : (c.renumber σ).components.length = c.components.length := List.length_map _
  rw [emission, emission, hlen, place_renumber]

theorem vertices_renumber (c : Condensation) (order : List Nat) :
    (c.renumber σ).vertices order = (c.vertices order).map σ := by
  rw [vertices, vertices, List.map_flatMap]
  refine List.flatMap_congr fun id _ => ?_
  rw [renumber, List.getElem?_map]
  cases c.components[id]? with
  | none => rfl
  | some k => rfl

theorem cycle?_renumber (c : Condensation) :
    (c.renumber σ).cycle? = c.cycle?.map (StrongComponent.renumber σ) := by
  have hcycle : StrongComponent.isCycle ∘ StrongComponent.renumber σ = StrongComponent.isCycle := by
    funext k
    simp [StrongComponent.isCycle, StrongComponent.renumber]
  rw [cycle?, cycle?, renumber, List.find?_map, hcycle]

end Condensation

end Buildwright
