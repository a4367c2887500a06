import Buildwright.Graph.Components
import Buildwright.Linked
import Buildwright.Proofs.Graph.LowLink
import Buildwright.Proofs.Package.Numbering

/-! # Strong components, exactly

    The search completes the components one by one (`LowLink.Settled`); the
    edges are noted afterwards.  This file reads both off a condensation:

    * `mem_placesOf_iff` — the place of a vertex is the number of its component;
    * `Noted` — what a condensation knows after some edges, kept by every edge;
    * `Digraph.IsCondensation` — a condensation lists the strong components of
      a graph with all that their edges say;
    * `Linked.condense_isCondensation` — the components of linked rules. -/

namespace Buildwright

variable {g : Digraph} {c : Condensation}

/-! ## Ascending lists -/

theorem mem_insertAscending_iff {n m : Nat} {l : List Nat} :
    m ∈ insertAscending n l ↔ m = n ∨ m ∈ l := by
  induction l with
  | nil => simp [insertAscending]
  | cons k l ih =>
      rw [insertAscending]
      by_cases hlt : n < k
      · simp [hlt]
      by_cases heq : n = k
      · simp [heq]
      · simp only [hlt, heq, if_false, List.mem_cons, ih]
        exact or_left_comm

theorem pairwise_insertAscending {n : Nat} {l : List Nat} (h : l.Pairwise (· < ·)) :
    (insertAscending n l).Pairwise (· < ·) := by
  induction l with
  | nil => exact List.pairwise_singleton ..
  | cons k l ih =>
      obtain ⟨hk, hl⟩ := List.pairwise_cons.1 h
      rw [insertAscending]
      by_cases hlt : n < k
      · rw [if_pos hlt]
        refine List.pairwise_cons.2 ⟨fun m hm => ?_, h⟩
        rcases List.mem_cons.1 hm with rfl | hm
        · exact hlt
        · exact Nat.lt_trans hlt (hk m hm)
      by_cases heq : n = k
      · rw [if_neg hlt, if_pos heq]
        exact h
      · rw [if_neg hlt, if_neg heq]
        refine List.pairwise_cons.2 ⟨fun m hm => ?_, ih hl⟩
        rcases mem_insertAscending_iff.1 hm with rfl | hm
        · omega
        · exact hk m hm

/-! ## Places -/

namespace LowLink

theorem map_fst_placesOf (cs : List (List Nat)) : (placesOf cs).map Prod.fst = cs.flatten := by
  induction cs with
  | nil => rfl
  | cons c cs ih =>
      rw [placesOf, List.map_append, ih, List.flatten_cons, List.map_map]
      exact congrArg (· ++ cs.flatten) (List.map_id c)

/-- What stands in a list with one more element at its end. -/
theorem getElem?_concat_eq_some_iff {α : Type} {l : List α} {a b : α} {i : Nat} :
    (l ++ [a])[i]? = some b ↔ l[i]? = some b ∨ i = l.length ∧ a = b := by
  rw [List.getElem?_append]
  by_cases hi : i < l.length
  · rw [if_pos hi]
    exact (or_iff_left fun h => absurd h.1 (Nat.ne_of_lt hi)).symm
  · rw [if_neg hi, List.getElem?_eq_none (Nat.le_of_not_lt hi), List.getElem?_singleton]
    by_cases he : i = l.length
    · simp [he]
    · have hpos : i - l.length ≠ 0 := by omega
      simp [he, hpos]

/-- The vertices of the component that is completed as number `i` have the place `i`. -/
theorem mem_placesOf_iff {cs : List (List Nat)} {v i : Nat} :
    (v, i) ∈ placesOf cs ↔ ∃ c, cs.reverse[i]? = some c ∧ v ∈ c := by
  induction cs with
  | nil => simp [placesOf]
  | cons c cs ih =>
      have hhead : (v, i) ∈ c.map (fun w => (w, cs.length)) ↔ i = cs.length ∧ v ∈ c := by
        rw [List.mem_map]
        constructor
        · rintro ⟨w, hw, he⟩
          obtain ⟨rfl, rfl⟩ := Prod.mk.inj he
          exact ⟨rfl, hw⟩
        · rintro ⟨rfl, hv⟩
          exact ⟨v, hv, rfl⟩
      rw [placesOf, List.mem_append, hhead, ih, List.reverse_cons]
      simp only [getElem?_concat_eq_some_iff, List.length_reverse]
      constructor
      · rintro (⟨hi, hv⟩ | ⟨d, hd, hv⟩)
        · exact ⟨c, .inr ⟨hi, rfl⟩, hv⟩
        · exact ⟨d, .inl hd, hv⟩
      · rintro ⟨d, hd | ⟨hi, rfl⟩, hv⟩
        · exact .inr ⟨d, hd, hv⟩
        · exact .inl ⟨hi, hv⟩

/-- The components in the order of completion: each leads to itself throughout, and
    its edges end in components that are not later. -/
theorem Settled.component {cs : List (List Nat)} (h : Settled g cs) {i : Nat} {c : List Nat}
    (hc : cs.reverse[i]? = some c) :
    c ≠ [] ∧ (∀ v ∈ c, ∀ w ∈ c, g.Reaches v w)
      ∧ ∀ v ∈ c, ∀ w, g.Edge v w → ∃ j d, cs.reverse[j]? = some d ∧ w ∈ d ∧ j ≤ i := by
  induction cs with
  | nil => simp at hc
  | cons d cs ih =>
      obtain ⟨hne, hm, he, hs⟩ := h
      rw [List.reverse_cons] at hc ⊢
      rcases getElem?_concat_eq_some_iff.1 hc with hc' | ⟨hi, rfl⟩
      · obtain ⟨h1, h2, h3⟩ := ih hs hc'
        refine ⟨h1, h2, fun v hv w hw => ?_⟩
        obtain ⟨j, b, hj, hwb, hle⟩ := h3 v hv w hw
        exact ⟨j, b, getElem?_concat_eq_some_iff.2 (.inl hj), hwb, hle⟩
      · refine ⟨hne, hm, fun v hv w hw => ?_⟩
        rcases he v hv w hw with hwd | hwcs
        · exact ⟨i, _, hc, hwd, Nat.le_refl _⟩
        · -- what was completed before stands before the last one
          obtain ⟨b, hb, hwb⟩ := List.mem_flatten.1 hwcs
          obtain ⟨j, hj⟩ := List.mem_iff_getElem?.1 (List.mem_reverse.2 hb)
          refine ⟨j, b, getElem?_concat_eq_some_iff.2 (.inl hj), hwb, ?_⟩
          rw [hi]
          exact Nat.le_of_lt (List.getElem?_eq_some_iff.1 hj).1

end LowLink

/-! ## Edges -/

namespace Condensation

/-- What the component of number `i` knows after some edges: the other components
    that its edges end in, ascending, and whether one of them is a loop. -/
structure Knows (c : Condensation) (i : Nat) (es : List (Nat × Nat)) (k : StrongComponent) :
    Prop where
  ascending : k.dependsOn.Pairwise (· < ·)
  dependsOn : ∀ d, d ∈ k.dependsOn ↔
    d ≠ i ∧ ∃ e ∈ es, c.componentOf? e.1 = some i ∧ c.componentOf? e.2 = some d
  selfLoop : k.selfLoop = true ↔ ∃ e ∈ es, e.1 = e.2 ∧ c.componentOf? e.1 = some i

/-- Whether `d` is the condensation `c` after some edges have been noted. -/
structure Noted (c : Condensation) (es : List (Nat × Nat)) (d : Condensation) : Prop where
  places : d.places = c.places
  length : d.components.length = c.components.length
  component : ∀ (i : Nat) (k : StrongComponent), d.components[i]? = some k →
    Knows c i es k ∧ ∃ k₀, c.components[i]? = some k₀ ∧ k.id = k₀.id ∧ k.members = k₀.members

theorem Noted.componentOf? {es : List (Nat × Nat)} {d : Condensation} (h : Noted c es d)
    (v : Nat) : d.componentOf? v = c.componentOf? v := by
  rw [Condensation.componentOf?, h.places]
  rfl

/-- Some edge of a longer list has a property. -/
theorem exists_mem_concat {es : List (Nat × Nat)} {e : Nat × Nat} {P : Nat × Nat → Prop} :
    (∃ x ∈ es ++ [e], P x) ↔ (∃ x ∈ es, P x) ∨ P e := by
  simp only [List.mem_append, List.mem_singleton, or_and_right, exists_or, exists_eq_left]

/-- What a component has to know of one more edge. -/
theorem Knows.concat {i : Nat} {es : List (Nat × Nat)} {e : Nat × Nat} {k k' : StrongComponent}
    (h : Knows c i es k) (ha : k'.dependsOn.Pairwise (· < ·))
    (hd : ∀ d, d ∈ k'.dependsOn ↔
      d ∈ k.dependsOn ∨ d ≠ i ∧ c.componentOf? e.1 = some i ∧ c.componentOf? e.2 = some d)
    (hl : k'.selfLoop = true ↔
      k.selfLoop = true ∨ e.1 = e.2 ∧ c.componentOf? e.1 = some i) :
    Knows c i (es ++ [e]) k' where
  ascending := ha
  dependsOn := by
    intro d
    rw [exists_mem_concat, and_or_left, ← h.dependsOn d]
    exact hd d
  selfLoop := by
    rw [exists_mem_concat, ← h.selfLoop]
    exact hl

/-- An edge that leaves another component, or ends in its own without being a loop,
    tells a component nothing. -/
theorem Knows.skip {i : Nat} {es : List (Nat × Nat)} {e : Nat × Nat} {k : StrongComponent}
    (h : Knows c i es k)
    (hd : ∀ d, d ≠ i → c.componentOf? e.1 = some i → c.componentOf? e.2 ≠ some d)
    (hl : e.1 = e.2 → c.componentOf? e.1 ≠ some i) : Knows c i (es ++ [e]) k := by
  refine h.concat h.ascending (fun d => ?_) ?_
  · exact (or_iff_left fun ⟨hne, h1, h2⟩ => hd d hne h1 h2).symm
  · exact (or_iff_left fun ⟨h1, h2⟩ => hl h1 h2).symm

/-- An edge that tells no component anything is noted as it is. -/
theorem Noted.skip {es : List (Nat × Nat)} {d : Condensation} (h : Noted c es d) {e : Nat × Nat}
    (hskip : ∀ i k, Knows c i es k → Knows c i (es ++ [e]) k) : Noted c (es ++ [e]) d := by
  refine ⟨h.places, h.length, fun i k hi => ?_⟩
  obtain ⟨hk, hrest⟩ := h.component i k hi
  exact ⟨hskip i k hk, hrest⟩

/-- An edge that leaves the component `a` is noted there and nowhere else. -/
theorem Noted.modify {es : List (Nat × Nat)} {d : Condensation} (h : Noted c es d) {e : Nat × Nat}
    {a : Nat} {f : StrongComponent → StrongComponent} (ha : c.componentOf? e.1 = some a)
    (hf : ∀ k, (f k).id = k.id ∧ (f k).members = k.members)
    (hk : ∀ k, Knows c a es k → Knows c a (es ++ [e]) (f k)) :
    Noted c (es ++ [e]) (d.modify a f) := by
  refine ⟨h.places, (List.length_modify ..).trans h.length, fun i k' hi => ?_⟩
  rw [Condensation.modify, List.getElem?_modify] at hi
  obtain ⟨k, hd, rfl⟩ := Option.map_eq_some_iff.1 hi
  obtain ⟨hki, k₀, hk₀, hid, hm⟩ := h.component i k hd
  by_cases hai : a = i
  · subst hai
    rw [if_pos rfl]
    exact ⟨hk k hki, k₀, hk₀, (hf k).1.trans hid, (hf k).2.trans hm⟩
  · rw [if_neg hai]
    have hne : c.componentOf? e.1 ≠ some i := fun hi => hai (Option.some.inj (ha.symm.trans hi))
    exact ⟨hki.skip (fun d _ hi _ => hne hi) (fun _ => hne), k₀, hk₀, hid, hm⟩

/-- Note an edge in every component. -/
theorem Noted.addEdge {es : List (Nat × Nat)} {d : Condensation} (h : Noted c es d)
    (e : Nat × Nat) : Noted c (es ++ [e]) (d.addEdge e) := by
  rw [Condensation.addEdge, h.componentOf?, h.componentOf?]
  cases ha : c.componentOf? e.1 with
  | none =>
      have hne : ∀ i, c.componentOf? e.1 ≠ some i := by
        intro i hi
        rw [ha] at hi
        cases hi
      exact h.skip fun i k hk => hk.skip (fun _ _ hi _ => hne i hi) fun _ => hne i
  | some a =>
      cases hb : c.componentOf? e.2 with
      | none =>
          refine h.skip fun i k hk => hk.skip ?_ ?_
          · intro d _ _ hd
            rw [hb] at hd
            cases hd
          · intro he _
            rw [← he, ha] at hb
            cases hb
      | some b =>
          by_cases he : e.1 = e.2
          · -- a loop
            have hab : a = b := by
              rw [← he, ha] at hb
              exact Option.some.inj hb
            simp only [he, if_true]
            refine h.modify ha (fun _ => ⟨rfl, rfl⟩) fun k hk => ?_
            refine hk.concat hk.ascending (fun d => ?_) ?_
            · refine (or_iff_left ?_).symm
              rintro ⟨hne, -, hd⟩
              rw [hb, ← hab] at hd
              exact hne (Option.some.inj hd).symm
            · exact ⟨fun _ => .inr ⟨he, ha⟩, fun _ => rfl⟩
          by_cases hab : a = b
          · -- an edge inside a component
            simp only [he, hab, if_false, ne_eq, not_true_eq_false]
            refine h.skip fun i k hk => hk.skip ?_ (fun h' => absurd h' he)
            intro d hne hi hd
            rw [ha] at hi
            rw [hb, ← hab, hi] at hd
            exact hne (Option.some.inj hd).symm
          · -- an edge from `a` to another component
            simp only [he, hab, if_false, ne_eq, not_false_eq_true, if_true]
            refine h.modify ha (fun _ => ⟨rfl, rfl⟩) fun k hk => ?_
            refine hk.concat (pairwise_insertAscending hk.ascending) (fun d => ?_) ?_
            · refine mem_insertAscending_iff.trans ?_
              rw [or_comm]
              refine or_congr_right ?_
              constructor
              · rintro rfl
                exact ⟨fun hd => hab hd.symm, ha, hb⟩
              · rintro ⟨-, -, hd⟩
                rw [hb] at hd
                exact (Option.some.inj hd).symm
            · exact (or_iff_left fun h' => he h'.1).symm

/-- Note a list of edges in every component. -/
theorem Noted.foldl {es : List (Nat × Nat)} {d : Condensation} (h : Noted c es d)
    (rest : List (Nat × Nat)) :
    Noted c (es ++ rest) (rest.foldl Condensation.addEdge d) := by
  induction rest generalizing es d with
  | nil =>
      rw [List.append_nil]
      exact h
  | cons e rest ih =>
      have := ih (h.addEdge e)
      rw [List.append_assoc] at this
      exact this

end Condensation

/-! ## Components of a graph -/

/-- Whether the components stand at the places of their numbers, and the vertices have
    the places of their components. -/
structure Condensation.Indexed (c : Condensation) : Prop where
  id_eq : ∀ (i : Nat) (k : StrongComponent), c.components[i]? = some k → k.id = i
  componentOf?_iff : ∀ v i, c.componentOf? v = some i ↔
    ∃ k, c.components[i]? = some k ∧ v ∈ k.members

namespace Condensation.Indexed

theorem getElem?_id (h : c.Indexed) {k : StrongComponent} (hk : k ∈ c.components) :
    c.components[k.id]? = some k := by
  obtain ⟨i, hi⟩ := List.mem_iff_getElem?.1 hk
  rw [h.id_eq i k hi]
  exact hi

/-- The place of a member is the number of its component. -/
theorem componentOf?_eq_id_iff (h : c.Indexed) {k : StrongComponent} (hk : k ∈ c.components)
    {v : Nat} : c.componentOf? v = some k.id ↔ v ∈ k.members := by
  rw [h.componentOf?_iff, h.getElem?_id hk]
  exact ⟨fun ⟨_, he, hv⟩ => Option.some.inj he ▸ hv, fun hv => ⟨k, rfl, hv⟩⟩

end Condensation.Indexed

/-- Whether a condensation lists the strong components of a graph, with their edges. -/
structure Digraph.IsCondensation (g : Digraph) (c : Condensation) : Prop extends c.Indexed where
  nonempty : ∀ k ∈ c.components, k.members ≠ []
  members_perm : (c.components.flatMap StrongComponent.members).Perm g.vertices
  mem_iff_mutual : ∀ k ∈ c.components, ∀ v ∈ k.members, ∀ w, w ∈ k.members ↔ g.Mutual v w
  ascending : ∀ k ∈ c.components, k.dependsOn.Pairwise (· < ·)
  dependsOn_iff : ∀ k ∈ c.components, ∀ d, d ∈ k.dependsOn ↔
    d ≠ k.id ∧ ∃ v ∈ k.members, ∃ w, g.Edge v w ∧ c.componentOf? w = some d
  selfLoop_iff : ∀ k ∈ c.components, k.selfLoop = true ↔ ∃ v ∈ k.members, g.Edge v v
  dependsOn_lt : ∀ k ∈ c.components, ∀ d ∈ k.dependsOn, d < k.id

/-- Every vertex is a member of a component. -/
theorem Digraph.IsCondensation.exists_component (h : g.IsCondensation c) {v : Nat}
    (hv : v < g.size) : ∃ k ∈ c.components, v ∈ k.members :=
  List.mem_flatMap.1 (h.members_perm.mem_iff.2 (List.mem_range.2 hv))

namespace LowLink

/-- Before its edges are noted, a component knows nothing. -/
theorem noted_condensation (s : LowLink) : s.condensation.Noted [] s.condensation := by
  refine ⟨rfl, rfl, fun i k hk => ⟨?_, k, hk, rfl, rfl⟩⟩
  simp only [condensation, List.getElem?_mapIdx, Option.map_eq_some_iff] at hk
  obtain ⟨members, -, rfl⟩ := hk
  exact ⟨List.Pairwise.nil, by simp, by simp⟩

/-- A vertex has the place of the component that it was put into. -/
theorem Visited.componentOf?_iff {s : LowLink} {roots : List Nat} (h : Visited g s roots)
    {v i : Nat} : s.condensation.componentOf? v = some i ↔
      ∃ members, s.closed.reverse[i]? = some members ∧ v ∈ members := by
  have hkeys : ((placesOf s.closed).map Prod.fst).Nodup := by
    rw [map_fst_placesOf]
    exact (List.nodup_append.1 (h.partition.nodup_iff.2 h.numbered.nodup)).2.1
  rw [Condensation.componentOf?, condensation, h.places, lookup_eq_some_iff_mem hkeys,
    mem_placesOf_iff]

end LowLink

/-- A walk from a component ends in one that was completed no later. -/
theorem LowLink.Settled.le_of_reaches {cs : List (List Nat)} (h : LowLink.Settled g cs)
    {i : Nat} {members : List Nat} (hi : cs.reverse[i]? = some members) {v w : Nat}
    (hv : v ∈ members) (hr : g.Reaches v w) :
    ∃ j d, cs.reverse[j]? = some d ∧ w ∈ d ∧ j ≤ i := by
  refine hr.mem_of_closed (P := fun x => ∃ j d, cs.reverse[j]? = some d ∧ x ∈ d ∧ j ≤ i) ?_
    ⟨i, members, hi, hv, Nat.le_refl _⟩
  rintro x y ⟨j, d, hj, hx, hle⟩ he
  obtain ⟨j', d', hj', hy, hle'⟩ := (h.component hj).2.2 x hx y he
  exact ⟨j', d', hj', hy, Nat.le_trans hle' hle⟩

namespace Digraph

variable {roots : List Nat} {i : Nat} {k : StrongComponent}

theorem noted_condense (g : Digraph) (roots : List Nat) :
    (g.lowLink roots).condensation.Noted g.edges (g.condense roots) := by
  have h := (LowLink.noted_condensation (g.lowLink roots)).foldl g.edges
  rw [List.nil_append] at h
  exact h

/-- A component is one that the search has completed, and knows all edges. -/
theorem component_condense (h : (g.condense roots).components[i]? = some k) :
    (g.lowLink roots).condensation.Knows i g.edges k ∧ k.id = i
      ∧ (g.lowLink roots).closed.reverse[i]? = some k.members := by
  obtain ⟨hknows, k₀, hk₀, hid, hm⟩ := (noted_condense g roots).component i k h
  simp only [LowLink.condensation, List.getElem?_mapIdx, Option.map_eq_some_iff] at hk₀
  obtain ⟨members, hmem, rfl⟩ := hk₀
  refine ⟨hknows, hid, ?_⟩
  rw [hm]
  exact hmem

/-- What the search has completed is a component. -/
theorem exists_component_condense {members : List Nat}
    (h : (g.lowLink roots).closed.reverse[i]? = some members) :
    ∃ k, (g.condense roots).components[i]? = some k ∧ k.members = members := by
  have hlt : i < (g.condense roots).components.length := by
    rw [(noted_condense g roots).length, LowLink.condensation, List.length_mapIdx]
    exact (List.getElem?_eq_some_iff.1 h).1
  refine ⟨_, List.getElem?_eq_getElem hlt, ?_⟩
  have hk := (component_condense (List.getElem?_eq_getElem hlt)).2.2
  exact Option.some.inj (hk.symm.trans h)

theorem map_members_condense (g : Digraph) (roots : List Nat) :
    (g.condense roots).components.map StrongComponent.members
      = (g.lowLink roots).closed.reverse := by
  refine List.ext_getElem? fun i => ?_
  rw [List.getElem?_map]
  cases hk : (g.condense roots).components[i]? with
  | some k => exact (component_condense hk).2.2.symm
  | none =>
      cases hm : (g.lowLink roots).closed.reverse[i]? with
      | none => rfl
      | some members =>
          obtain ⟨k, hk', -⟩ := exists_component_condense hm
          rw [hk] at hk'
          cases hk'

/-- The place of a vertex is the number of the component that it is a member of. -/
theorem indexed_condense (hg : g.InRange) (roots : List Nat) : (g.condense roots).Indexed := by
  refine ⟨fun i k hk => (component_condense hk).2.1, fun v i => ?_⟩
  rw [(noted_condense g roots).componentOf?, (LowLink.visited_lowLink hg roots).componentOf?_iff]
  constructor
  · rintro ⟨members, hi, hv⟩
    obtain ⟨k, hk, rfl⟩ := exists_component_condense hi
    exact ⟨k, hk, hv⟩
  · rintro ⟨k, hk, hv⟩
    exact ⟨_, (component_condense hk).2.2, hv⟩

/-- What is known of a component of the graph. -/
theorem mem_components_condense (hg : g.InRange) (hk : k ∈ (g.condense roots).components) :
    (g.lowLink roots).condensation.Knows k.id g.edges k
      ∧ (g.lowLink roots).closed.reverse[k.id]? = some k.members :=
  have h := component_condense ((indexed_condense hg roots).getElem?_id hk)
  ⟨h.1, h.2.2⟩

/-- A component depends on those that an edge of a member ends in. -/
theorem dependsOn_condense_iff (hg : g.InRange) (hk : k ∈ (g.condense roots).components)
    {d : Nat} : d ∈ k.dependsOn ↔
      d ≠ k.id ∧ ∃ v ∈ k.members, ∃ w, g.Edge v w ∧ (g.condense roots).componentOf? w = some d := by
  rw [(mem_components_condense hg hk).1.dependsOn d]
  refine and_congr_right fun _ => ?_
  simp only [← (noted_condense g roots).componentOf?,
    (indexed_condense hg roots).componentOf?_eq_id_iff hk]
  constructor
  · rintro ⟨e, he, hv, hd⟩
    exact ⟨e.1, hv, e.2, mem_edges_iff.1 he, hd⟩
  · rintro ⟨v, hv, w, he, hd⟩
    exact ⟨(v, w), mem_edges_iff.2 he, hv, hd⟩

/-- A component has a loop if one of its members is its own successor. -/
theorem selfLoop_condense_iff (hg : g.InRange) (hk : k ∈ (g.condense roots).components) :
    k.selfLoop = true ↔ ∃ v ∈ k.members, g.Edge v v := by
  rw [(mem_components_condense hg hk).1.selfLoop]
  simp only [← (noted_condense g roots).componentOf?,
    (indexed_condense hg roots).componentOf?_eq_id_iff hk]
  constructor
  · rintro ⟨⟨v, w⟩, he, heq, hv⟩
    obtain rfl : v = w := heq
    exact ⟨v, hv, mem_edges_iff.1 he⟩
  · rintro ⟨v, hv, he⟩
    exact ⟨(v, v), mem_edges_iff.2 he, rfl, hv⟩

/-- The members of a component are those that lead to one of them and back. -/
theorem mem_members_condense_iff (hg : g.InRange) (hk : k ∈ (g.condense roots).components)
    {v w : Nat} (hv : v ∈ k.members) : w ∈ k.members ↔ g.Mutual v w := by
  have hsettled := (LowLink.visited_lowLink hg roots).settled
  have hi := (mem_components_condense hg hk).2
  have hindex := indexed_condense hg roots
  obtain ⟨-, hconn, -⟩ := hsettled.component hi
  refine ⟨fun hw => ⟨hconn v hv w hw, hconn w hw v hv⟩, fun hm => ?_⟩
  -- each of the two components is completed no later than the other
  obtain ⟨j, d, hj, hw, hle⟩ := hsettled.le_of_reaches hi hv hm.1
  obtain ⟨j', d', hj', hv', hle'⟩ := hsettled.le_of_reaches hj hw hm.2
  obtain ⟨k₁, hk₁, rfl⟩ := exists_component_condense hj
  obtain ⟨k₂, hk₂, rfl⟩ := exists_component_condense hj'
  have h1 := (hindex.componentOf?_iff _ _).2 ⟨k₂, hk₂, hv'⟩
  rw [(hindex.componentOf?_eq_id_iff hk).2 hv] at h1
  have h2 : k.id = j := by
    have := Option.some.inj h1
    omega
  rw [← h2, hindex.getElem?_id hk] at hk₁
  cases hk₁
  exact hw

/-- A component depends on components that were completed before it. -/
theorem lt_of_mem_dependsOn_condense (hg : g.InRange) (hk : k ∈ (g.condense roots).components)
    {d : Nat} (hd : d ∈ k.dependsOn) : d < k.id := by
  obtain ⟨hne, v, hv, w, he, hw⟩ := (dependsOn_condense_iff hg hk).1 hd
  obtain ⟨-, -, hedges⟩ := (LowLink.visited_lowLink hg roots).settled.component
    (mem_components_condense hg hk).2
  obtain ⟨j, members, hj, hwm, hle⟩ := hedges v hv w he
  obtain ⟨k', hk', rfl⟩ := exists_component_condense hj
  rw [((indexed_condense hg roots).componentOf?_iff _ _).2 ⟨k', hk', hwm⟩] at hw
  have := Option.some.inj hw
  omega

/-- The search from all vertices finds the strong components. -/
theorem isCondensation_condense (hg : g.InRange) (hroots : ∀ v < g.size, v ∈ roots) :
    g.IsCondensation (g.condense roots) where
  toIndexed := indexed_condense hg roots
  nonempty := fun _ hk => ((LowLink.visited_lowLink hg roots).settled.component
    (mem_components_condense hg hk).2).1
  members_perm := by
    rw [List.flatMap_def, map_members_condense]
    exact (List.reverse_perm _).flatten.trans (LowLink.flatten_closed_perm hg hroots)
  mem_iff_mutual := fun _ hk _ hv _ => mem_members_condense_iff hg hk hv
  ascending := fun _ hk => (mem_components_condense hg hk).1.ascending
  dependsOn_iff := fun _ hk _ => dependsOn_condense_iff hg hk
  selfLoop_iff := fun _ hk => selfLoop_condense_iff hg hk
  dependsOn_lt := fun _ hk _ => lt_of_mem_dependsOn_condense hg hk

end Digraph

/-! ## Components of linked rules -/

namespace Linked

/-- The search by names starts from every rule. -/
theorem isCondensation_condense (l : Linked) (hn : l.set.Numbered) (hg : l.graph.InRange) :
    l.graph.IsCondensation l.condense := by
  refine Digraph.isCondensation_condense hg fun v hv => hn.mem_idsByName_iff.2 ?_
  rw [← l.size_eq]
  exact hv

/-- **Components are exact**: every rule is a member of one component, once, and has
    its place; rules share a component if each leads to the other; a component depends
    on the others that its edges end in, all of smaller number, and has a loop if an
    edge of a member ends in that member. -/
theorem condense_strong_components (l : Linked) (hn : l.set.Numbered) (hg : l.graph.InRange) :
    (l.condense.components.flatMap StrongComponent.members).Perm l.graph.vertices
      ∧ (∀ k ∈ l.condense.components, l.condense.components[k.id]? = some k ∧ k.members ≠ []
          ∧ ∀ v, l.condense.componentOf? v = some k.id ↔ v ∈ k.members)
      ∧ (∀ v < l.graph.size, ∀ w < l.graph.size,
          l.condense.componentOf? v = l.condense.componentOf? w
            ↔ l.graph.Reaches v w ∧ l.graph.Reaches w v)
      ∧ ∀ k ∈ l.condense.components,
          (∀ k' ∈ l.condense.components, k'.id ∈ k.dependsOn ↔
            k' ≠ k ∧ ∃ v ∈ k.members, ∃ w ∈ k'.members, l.graph.Edge v w)
          ∧ (∀ d ∈ k.dependsOn, d < k.id ∧ ∃ k' ∈ l.condense.components, k'.id = d)
          ∧ (k.selfLoop = true ↔ ∃ v ∈ k.members, l.graph.Edge v v) := by
  have h := l.isCondensation_condense hn hg
  have hat : ∀ k ∈ l.condense.components, l.condense.components[k.id]? = some k :=
    fun _ hk => h.getElem?_id hk
  refine ⟨h.members_perm, fun k hk => ⟨hat k hk, h.nonempty k hk, ?_⟩, ?_, fun k hk => ⟨?_, ?_, ?_⟩⟩
  · exact fun v => h.componentOf?_eq_id_iff hk
  · intro v hv w hw
    obtain ⟨k, hk, hvk⟩ := h.exists_component hv
    obtain ⟨k', hk', hwk'⟩ := h.exists_component hw
    rw [(h.componentOf?_eq_id_iff hk).2 hvk, eq_comm, h.componentOf?_eq_id_iff hk,
      h.mem_iff_mutual k hk v hvk]
    exact Iff.rfl
  · intro k' hk'
    rw [h.dependsOn_iff k hk]
    refine and_congr ⟨fun hne he => hne (he ▸ rfl), fun hne hid => hne ?_⟩ ?_
    · have h1 := hat k' hk'
      rw [hid, hat k hk] at h1
      exact (Option.some.inj h1).symm
    · simp only [h.componentOf?_eq_id_iff hk', and_comm]
  · intro d hd
    refine ⟨h.dependsOn_lt k hk d hd, ?_⟩
    obtain ⟨-, v, -, w, -, hw⟩ := (h.dependsOn_iff k hk d).1 hd
    obtain ⟨k', hk', -⟩ := (h.componentOf?_iff w d).1 hw
    exact ⟨k', List.mem_of_getElem? hk', h.id_eq d k' hk'⟩
  · exact h.selfLoop_iff k hk

/-- Rules `a` and `b` that depend on each other, and a rule `c` that depends on itself
    and on `a`. -/
def ringAndLoop : Linked where
  set := {
    rules := ["a", "b", "c"].mapIdx fun id name =>
      { id, package := "pkg", declaration := { (default : Declaration) with name } }
    packages := [] }
  graph := ⟨[[1], [0], [2, 0]]⟩
  size_eq := rfl

/-- The ring is one component, the loop another. -/
theorem ringAndLoop_components :
    ringAndLoop.set.Numbered ∧ ringAndLoop.graph.InRange
      ∧ ringAndLoop.condense.componentOf? 0 = ringAndLoop.condense.componentOf? 1
      ∧ ringAndLoop.condense.componentOf? 0 ≠ ringAndLoop.condense.componentOf? 2 := by
  have hn : ringAndLoop.set.Numbered := by decide
  have hg : ringAndLoop.graph.InRange := by decide
  obtain ⟨-, -, hmutual, -⟩ := condense_strong_components ringAndLoop hn hg
  refine ⟨hn, hg, (hmutual 0 (by decide) 1 (by decide)).2 ?_, fun he => ?_⟩
  · exact ⟨.of_edge (by decide), .of_edge (by decide)⟩
  · -- no edge leaves the ring
    have hring : ∀ u v, u < 2 → ringAndLoop.graph.Edge u v → v < 2 := by
      intro u v hu he
      have : ∀ u < 2, ∀ v ∈ ringAndLoop.graph.next u, v < 2 := by decide
      exact this u hu v he
    have hr := ((hmutual 0 (by decide) 2 (by decide)).1 he).1
    exact absurd (hr.mem_of_closed (P := (· < 2)) hring (by decide)) (by decide)

end Linked

end Buildwright
