import Buildwright.Graph.Walk
import Buildwright.Proofs.Graph.Reachability
import Buildwright.Proofs.Moved
import Buildwright.Proofs.Outcome
import Mathlib.Data.List.Rotate

/-! # Ordered walks in a renumbered graph

    A graph whose vertices are renumbered is walked like the graph itself: the
    order of successors decides, never a number.  It is enough that the part of
    the graph that the walk comes to is renumbered, one to one; what else either
    graph has is of no account.  Only where the walk closes a cycle does it begin
    it at its least vertex, so there the two answers are the same round of
    vertices begun elsewhere.

    * `Digraph.Renumbers` — the relation of two graphs;
    * `Digraph.Embeds` — the relation of a part of a graph to another graph;
    * `Cycle.rotate_isRotated` — a cycle is written down as the round it is;
    * `Digraph.walk_embeds`, `Digraph.dependenciesInOrder_embeds`. -/

namespace Buildwright

variable {σ : Equiv.Perm Nat}

/-- Whether the permutation of the vertices takes one graph to the other, the successors
    of every vertex in their order. -/
def Digraph.Renumbers (σ : Equiv.Perm Nat) (g g' : Digraph) : Prop :=
  Moved σ (List.map σ) g.successors g'.successors

namespace Digraph.Renumbers

variable {g g' : Digraph}

theorem size_eq (h : g.Renumbers σ g') : g'.size = g.size :=
  h.length_eq

theorem lt_size_iff (h : g.Renumbers σ g') {v : Nat} : σ v < g'.size ↔ v < g.size :=
  h.lt_iff

theorem next (h : g.Renumbers σ g') (v : Nat) : g'.next (σ v) = (g.next v).map σ :=
  h.getD v rfl

end Digraph.Renumbers

/-- Whether `φ` takes the vertices of `P` to vertices of another graph, one to one and the
    successors of each in their order, and no edge leads out of `P`. -/
structure Digraph.Embeds (φ : Nat → Nat) (P : Nat → Prop) (g g' : Digraph) : Prop where
  injective : ∀ v w, P v → P w → φ v = φ w → v = w
  closed : ∀ v w, P v → g.Edge v w → P w
  lt_size_iff : ∀ v, P v → (φ v < g'.size ↔ v < g.size)
  next : ∀ v, P v → g'.next (φ v) = (g.next v).map φ

theorem Digraph.Renumbers.embeds {g g' : Digraph} (h : g.Renumbers σ g') :
    g.Embeds σ (fun _ => True) g' where
  injective _ _ _ _ hvw := σ.injective hvw
  closed _ _ _ _ := trivial
  lt_size_iff _ _ := h.lt_size_iff
  next v _ := h.next v

/-- Being another vertex does not depend on the numbers. -/
theorem decide_ne_comp (σ : Equiv.Perm Nat) (v : Nat) :
    (fun w => decide (w ≠ σ v)) ∘ σ = fun w => decide (w ≠ v) := by
  funext w
  simp

/-! ## Rounds of vertices -/

namespace Cycle

/-- A cycle is written down as the round of vertices that it is. -/
theorem rotate_isRotated (round : List Nat) : (rotate round).IsRotated round := by
  refine List.IsRotated.symm ⟨(round.takeWhile (· ≠ least round)).length, ?_⟩
  have hsplit := List.takeWhile_append_dropWhile (p := (· ≠ least round)) (l := round)
  nth_rewrite 1 [← hsplit]
  rw [List.rotate_append_length_eq]
  rfl

theorem map_close {α β : Type} (f : α → β) (round : List α) :
    (close round).map f = close (round.map f) := by
  cases round with
  | nil => rfl
  | cons a rest => simp [close]

end Cycle

/-! ## Lists of renumbered vertices -/

section

variable {φ : Nat → Nat} {P : Nat → Prop} {l : List Nat} {v : Nat}

theorem mem_map_iff_of_injective (hφ : ∀ v w, P v → P w → φ v = φ w → v = w)
    (hl : ∀ w ∈ l, P w) (hv : P v) : φ v ∈ l.map φ ↔ v ∈ l := by
  constructor
  · intro h
    obtain ⟨w, hw, heq⟩ := List.mem_map.1 h
    rwa [← hφ w v (hl w hw) hv heq]
  · exact List.mem_map_of_mem

/-- A list is searched for the renumbered vertex like the list itself. -/
theorem takeWhile_ne_map (hφ : ∀ v w, P v → P w → φ v = φ w → v = w) (hl : ∀ w ∈ l, P w)
    (hv : P v) : (l.map φ).takeWhile (· ≠ φ v) = (l.takeWhile (· ≠ v)).map φ := by
  induction l with
  | nil => rfl
  | cons w rest ih =>
      have hrest := ih fun u hu => hl u (List.mem_cons_of_mem _ hu)
      by_cases hw : w = v
      · simp [hw]
      · have hne : φ w ≠ φ v := fun heq => hw (hφ w v (hl w (List.mem_cons_self ..)) hv heq)
        rw [List.map_cons, List.takeWhile_cons_of_pos (by simpa using hne),
          List.takeWhile_cons_of_pos (by simpa using hw), List.map_cons, hrest]

theorem filter_ne_map (hφ : ∀ v w, P v → P w → φ v = φ w → v = w) (hl : ∀ w ∈ l, P w)
    (hv : P v) : (l.map φ).filter (· ≠ φ v) = (l.filter (· ≠ v)).map φ := by
  rw [List.filter_map]
  refine congrArg (List.map φ) (List.filter_congr fun w hw => ?_)
  rw [Function.comp_apply, decide_eq_decide]
  exact not_congr ⟨hφ w v (hl w hw) hv, congrArg φ⟩

theorem Cycle.ofPath_map (hφ : ∀ v w, P v → P w → φ v = φ w → v = w) (hl : ∀ w ∈ l, P w)
    (hv : P v) : ofPath (l.map φ) (φ v) = (ofPath l v).map φ := by
  rw [ofPath, ofPath, takeWhile_ne_map hφ hl hv, List.map_cons, List.map_reverse]

end

/-! ## Walks -/

/-- The event at the renumbered vertex. -/
def Event.renumber (φ : Nat → Nat) : Event → Event
  | .enter v => .enter (φ v)
  | .leave v => .leave (φ v)

def Event.vertex : Event → Nat
  | .enter v => v
  | .leave v => v

/-- The records with renumbered vertices. -/
def Search.renumber (φ : Nat → Nat) (s : Search) : Search where
  path := s.path.map φ
  entered := s.entered.map φ
  left := s.left.map φ

/-- Whether a search has met vertices of `P` only. -/
structure Search.Within (P : Nat → Prop) (s : Search) : Prop where
  path : ∀ v ∈ s.path, P v
  entered : ∀ v ∈ s.entered, P v
  left : ∀ v ∈ s.left, P v

/-- Whether two cycles are one round of vertices and its renumbering, each begun at its
    least vertex. -/
def SameRound (φ : Nat → Nat) (c c' : List Nat) : Prop :=
  ∃ round, c = Cycle.close (Cycle.rotate round) ∧ c' = Cycle.close (Cycle.rotate (round.map φ))

namespace Digraph

variable {g g' : Digraph} {φ : Nat → Nat} {P : Nat → Prop}

/-- A walk in the part `P` of a graph is renumbered, step by step. -/
theorem walk_embeds (h : g.Embeds φ P g') (agenda : List Event) (s : Search)
    (hagenda : ∀ event ∈ agenda, P event.vertex) (hs : s.Within P) :
    Agrees (SameRound φ) (fun t t' => t' = t.renumber φ ∧ t.Within P) (g.walk agenda s)
      (g'.walk (agenda.map (Event.renumber φ)) (s.renumber φ)) := by
  fun_induction Digraph.walk g agenda s with
  | case1 s =>
      rw [List.map_nil, walk]
      exact .ok ⟨rfl, hs⟩
  | case2 s v rest ih =>
      have hv : P v := hagenda _ (List.mem_cons_self ..)
      have hdrop : (s.renumber φ).path.drop 1 = (s.path.drop 1).map φ := List.map_drop.symm
      rw [List.map_cons, Event.renumber, walk, hdrop]
      refine ih (fun event he => hagenda event (List.mem_cons_of_mem _ he))
        ⟨fun w hw => hs.path w (List.mem_of_mem_drop hw), hs.entered, ?_⟩
      exact List.forall_mem_cons.2 ⟨hv, hs.left⟩
  | case3 s v rest hpath =>
      -- both walks close the round that the path leads through since `v`
      have hv : P v := hagenda _ (List.mem_cons_self ..)
      have hpath' : φ v ∈ (s.renumber φ).path :=
        (mem_map_iff_of_injective h.injective hs.path hv).2 hpath
      rw [List.map_cons, Event.renumber, walk, if_pos hpath']
      refine .error ⟨Cycle.ofPath s.path v, rfl, ?_⟩
      rw [← Cycle.ofPath_map h.injective hs.path hv]
      rfl
  | case4 s v rest hpath hskip ih =>
      have hv : P v := hagenda _ (List.mem_cons_self ..)
      have hpath' : φ v ∉ (s.renumber φ).path :=
        (mem_map_iff_of_injective h.injective hs.path hv).not.2 hpath
      have hskip' : φ v ∈ (s.renumber φ).entered ∨ ¬ φ v < g'.size := by
        rw [h.lt_size_iff v hv]
        exact hskip.imp_left (mem_map_iff_of_injective h.injective hs.entered hv).2
      rw [List.map_cons, Event.renumber, walk, if_neg hpath', if_pos hskip']
      exact ih (fun event he => hagenda event (List.mem_cons_of_mem _ he)) hs
  | case5 s v rest hpath hnew ih =>
      have hv : P v := hagenda _ (List.mem_cons_self ..)
      have hpath' : φ v ∉ (s.renumber φ).path :=
        (mem_map_iff_of_injective h.injective hs.path hv).not.2 hpath
      have hnew' : ¬ (φ v ∈ (s.renumber φ).entered ∨ ¬ φ v < g'.size) := by
        rw [h.lt_size_iff v hv]
        exact fun hor => hnew (hor.imp_left (mem_map_iff_of_injective h.injective hs.entered hv).1)
      have hagenda' : ((g.next v).map Event.enter ++ Event.leave v :: rest).map (Event.renumber φ) =
          ((g.next v).map φ).map Event.enter ++
            Event.leave (φ v) :: rest.map (Event.renumber φ) := by
        simp [Event.renumber, Function.comp_def]
      rw [List.map_cons, Event.renumber, walk, if_neg hpath', if_neg hnew', h.next v hv, ← hagenda']
      refine ih (fun event he => ?_) ⟨List.forall_mem_cons.2 ⟨hv, hs.path⟩,
        List.forall_mem_cons.2 ⟨hv, hs.entered⟩, hs.left⟩
      rcases List.mem_append.1 he with he | he
      · obtain ⟨w, hw, rfl⟩ := List.mem_map.1 he
        exact h.closed v w hv hw
      · rcases List.mem_cons.1 he with rfl | he
        · exact hv
        · exact hagenda event (List.mem_cons_of_mem _ he)

/-- What a vertex of `P` depends on is in `P`, and is renumbered like the vertex. -/
theorem dependenciesInOrder_embeds (h : g.Embeds φ P g') {root : Nat} (hroot : P root) :
    Agrees (SameRound φ) (fun order order' => order' = order.map φ ∧ ∀ v ∈ order, P v)
      (g.dependenciesInOrder? root) (g'.dependenciesInOrder? (φ root)) := by
  have hstart : ({} : Search).Within P :=
    ⟨fun _ hv => absurd hv List.not_mem_nil, fun _ hv => absurd hv List.not_mem_nil,
      fun _ hv => absurd hv List.not_mem_nil⟩
  have hagenda : ∀ event ∈ [Event.enter root], P event.vertex := by
    intro event he
    rw [List.mem_singleton.1 he]
    exact hroot
  refine (walk_embeds h [.enter root] {} hagenda hstart).bind ?_
  rintro s - ⟨rfl, hs⟩
  have hleft : ∀ v ∈ s.left.reverse, P v := fun v hv => hs.left v (List.mem_reverse.1 hv)
  refine .ok ⟨?_, fun v hv => hleft v (List.mem_of_mem_filter hv)⟩
  show ((s.left.map φ).reverse.filter fun v => decide (v ≠ φ root)) =
    (s.left.reverse.filter fun v => decide (v ≠ root)).map φ
  rw [← List.map_reverse, filter_ne_map h.injective hleft hroot]

end Digraph

end Buildwright
