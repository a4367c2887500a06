import Buildwright.Graph.Walk
import Buildwright.Proofs.Graph.Reachability

/-! # What an ordered walk finds

    The vertices that the agenda leaves are those on the path, and they cut it into
    segments.  Below `leave v` stands the segment of the vertex that led to `v`; above it
    the segment in which the successors of `v` are entered.  So a vertex is left behind
    all of its successors, and one that is met again on the path leads back to itself.

    * `Digraph.Closed` — what has been left: nothing in it leads out of it, or back;
    * `Digraph.Due` — what the agenda still takes care of;
    * `Digraph.walk_spec` — how a walk can end;
    * `Digraph.dependenciesInOrder_eq_error_iff` — when it breaks off. -/

namespace Buildwright.Digraph

variable {g : Digraph} {root u v w : Nat} {left above : List Nat} {agenda rest : List Event}
  {s : Search}

/-! ## What has been left -/

/-- Whether every vertex of the list stands before all of its successors. -/
def Closed (g : Digraph) : List Nat → Prop
  | [] => True
  | v :: rest => (∀ w, g.Edge v w → w ∈ rest) ∧ Closed g rest

theorem Closed.mem_of_edge (h : g.Closed left) (hv : v ∈ left) (he : g.Edge v w) : w ∈ left := by
  induction left with
  | nil => exact absurd hv List.not_mem_nil
  | cons x rest ih =>
      rcases List.mem_cons.1 hv with rfl | hv
      · exact List.mem_cons_of_mem _ (h.1 w he)
      · exact List.mem_cons_of_mem _ (ih h.2 hv)

/-- No walk leads out of the list. -/
theorem Closed.mem_of_reaches (h : g.Closed left) (hv : v ∈ left) (hr : g.Reaches v w) :
    w ∈ left :=
  hr.mem_of_closed (P := (· ∈ left)) (fun _ _ hx he => h.mem_of_edge hx he) hv

/-- No vertex of the list leads back to itself. -/
theorem Closed.not_dependsOn_self (h : g.Closed left) (hv : v ∈ left) : ¬ g.DependsOn v v := by
  induction left with
  | nil => exact absurd hv List.not_mem_nil
  | cons x rest ih =>
      by_cases hrest : v ∈ rest
      · exact ih h.2 hrest
      · -- a vertex that stands only at the front leads into the rest, and stays there
        rintro ⟨u, he, hr⟩
        obtain rfl : v = x := (List.mem_cons.1 hv).resolve_right hrest
        exact hrest (h.2.mem_of_reaches (h.1 u he) hr)

/-! ## What the agenda takes care of -/

/-- The vertices that the agenda leaves, in order. -/
def onPath : List Event → List Nat
  | [] => []
  | .enter _ :: rest => onPath rest
  | .leave v :: rest => v :: onPath rest

theorem onPath_enter_append (ws : List Nat) (agenda : List Event) :
    onPath (ws.map .enter ++ agenda) = onPath agenda := by
  induction ws with
  | nil => rfl
  | cons w ws ih => exact ih

/-- Whether the agenda takes care of every successor of a vertex that it leaves: each has
    been left, or is among the vertices `above` it in the segment.  The last segment takes
    care of the root. -/
def Due (g : Digraph) (root : Nat) (left : List Nat) : List Nat → List Event → Prop
  | above, [] => (∀ v ∈ above, v = root) ∧ (root ∈ left ∨ root ∈ above)
  | above, .enter v :: rest => Due g root left (v :: above) rest
  | above, .leave v :: rest =>
    (∀ w ∈ above, g.Edge v w) ∧ (∀ w, g.Edge v w → w ∈ left ∨ w ∈ above) ∧
      Due g root left [v] rest

/-- Vertices of the segment count for nothing once they have been left. -/
theorem Due.mono {left' above' : List Nat} (h : g.Due root left above agenda)
    (hleft : ∀ x ∈ left, x ∈ left') (hsub : ∀ x ∈ above', x ∈ above)
    (hdone : ∀ x ∈ above, x ∈ left' ∨ x ∈ above') : g.Due root left' above' agenda := by
  induction agenda generalizing above above' with
  | nil =>
      refine ⟨fun x hx => h.1 x (hsub x hx), ?_⟩
      rcases h.2 with hroot | hroot
      · exact .inl (hleft root hroot)
      · exact hdone root hroot
  | cons event rest ih =>
      cases event with
      | enter v =>
          have hsub' : ∀ x ∈ v :: above', x ∈ v :: above := by
            intro x hx
            exact List.mem_cons.2 ((List.mem_cons.1 hx).imp id (hsub x))
          have hdone' : ∀ x ∈ v :: above, x ∈ left' ∨ x ∈ v :: above' := by
            intro x hx
            rcases List.mem_cons.1 hx with rfl | hx
            · exact .inr (List.mem_cons_self ..)
            · exact (hdone x hx).imp id (List.mem_cons_of_mem v)
          exact ih h hsub' hdone'
      | leave v =>
          refine ⟨fun x hx => h.1 x (hsub x hx), fun x he => ?_, ?_⟩
          · rcases h.2.1 x he with hx | hx
            · exact .inl (hleft x hx)
            · exact hdone x hx
          · exact ih h.2.2 (fun _ hx => hx) fun _ hx => .inr hx

/-- A vertex that has been left can be taken out of the segment. -/
theorem Due.drop (h : g.Due root left (v :: above) agenda) (hv : v ∈ left) :
    g.Due root left above agenda := by
  refine h.mono (fun _ hx => hx) (fun _ hx => List.mem_cons_of_mem v hx) fun x hx => ?_
  rcases List.mem_cons.1 hx with rfl | hx
  · exact .inl hv
  · exact .inr hx

/-- The root leads to everything in the segment. -/
theorem Due.reaches (h : g.Due root left above agenda) (hw : w ∈ above) : g.Reaches root w := by
  induction agenda generalizing above w with
  | nil =>
      rw [h.1 w hw]
      exact .refl root
  | cons event rest ih =>
      cases event with
      | enter v => exact ih h (List.mem_cons_of_mem v hw)
      | leave v => exact (ih h.2.2 (List.mem_singleton_self v)).tail (h.1 w hw)

/-- Every vertex of the path leads to everything in the segment. -/
theorem Due.dependsOn (h : g.Due root left above agenda) (hw : w ∈ above)
    (hu : u ∈ onPath agenda) : g.DependsOn u w := by
  induction agenda generalizing above w with
  | nil => exact absurd hu List.not_mem_nil
  | cons event rest ih =>
      cases event with
      | enter v => exact ih h (List.mem_cons_of_mem v hw) hu
      | leave v =>
          rcases List.mem_cons.1 hu with rfl | hu
          · exact ⟨w, h.1 w hw, .refl w⟩
          · obtain ⟨x, he, hr⟩ := ih h.2.2 (List.mem_singleton_self v) hu
            exact ⟨x, he, hr.tail (h.1 w hw)⟩

/-- A segment that enters the successors of a vertex takes care of them. -/
theorem Due.enter (h : g.Due root left [v] rest) :
    g.Due root left [] ((g.next v).map .enter ++ .leave v :: rest) := by
  have hsegment : ∀ ws above : List Nat, g.Due root left (ws.reverse ++ above) (.leave v :: rest) →
      g.Due root left above (ws.map .enter ++ .leave v :: rest) := by
    intro ws
    induction ws with
    | nil => exact fun _ h => h
    | cons w ws ih =>
        intro above hdue
        rw [List.reverse_cons, List.append_assoc] at hdue
        exact ih (w :: above) hdue
  refine hsegment (g.next v) [] ⟨fun w hw => ?_, fun w he => .inr ?_, h⟩
  · rwa [List.append_nil, List.mem_reverse] at hw
  · rwa [List.append_nil, List.mem_reverse]

/-! ## Walks -/

/-- What holds while a walk from `root` works off its agenda. -/
structure Walking (g : Digraph) (root : Nat) (agenda : List Event) (s : Search) : Prop where
  path : s.path = onPath agenda
  due : g.Due root s.left [] agenda
  closed : g.Closed s.left
  entered : ∀ v ∈ s.entered, v ∈ s.path ∨ v ∈ s.left

theorem walking_start (g : Digraph) (root : Nat) : g.Walking root [.enter root] {} where
  path := rfl
  due := ⟨fun _ hv => List.mem_singleton.1 hv, .inr (List.mem_singleton_self root)⟩
  closed := trivial
  entered _ hv := absurd hv List.not_mem_nil

theorem Walking.leave (h : g.Walking root (.leave v :: rest) s) :
    g.Walking root rest { s with path := s.path.drop 1, left := v :: s.left } where
  path := by
    rw [h.path]
    rfl
  due := h.due.2.2.mono (fun _ hx => List.mem_cons_of_mem v hx)
    (fun _ hx => absurd hx List.not_mem_nil)
    fun _ hx => .inl (List.mem_singleton.1 hx ▸ List.mem_cons_self ..)
  closed := ⟨fun w he => (h.due.2.1 w he).resolve_right List.not_mem_nil, h.closed⟩
  entered := by
    intro x hx
    have hpath : s.path = v :: onPath rest := h.path
    rcases h.entered x hx with hx | hx
    · rw [hpath] at hx ⊢
      rcases List.mem_cons.1 hx with rfl | hx
      · exact .inr (List.mem_cons_self ..)
      · exact .inl hx
    · exact .inr (List.mem_cons_of_mem v hx)

/-- Entering a vertex that has been left changes nothing. -/
theorem Walking.skip (h : g.Walking root (.enter v :: rest) s) (hv : v ∈ s.left) :
    g.Walking root rest s where
  path := h.path
  due := Due.drop h.due hv
  closed := h.closed
  entered := h.entered

theorem Walking.enter (h : g.Walking root (.enter v :: rest) s) :
    g.Walking root ((g.next v).map .enter ++ .leave v :: rest)
      { s with path := v :: s.path, entered := v :: s.entered } where
  path := by
    rw [onPath_enter_append, h.path]
    rfl
  due := Due.enter h.due
  closed := h.closed
  entered := by
    intro x hx
    rcases List.mem_cons.1 hx with rfl | hx
    · exact .inl (List.mem_cons_self ..)
    · exact (h.entered x hx).imp (List.mem_cons_of_mem v) id

/-- A vertex on the agenda is in the graph, since the root is. -/
theorem Walking.lt_size (h : g.Walking root (.enter v :: rest) s) (hg : g.InRange)
    (hroot : root < g.size) : v < g.size := by
  have hdue : g.Due root s.left [v] rest := h.due
  have hreach : g.Reaches root v := hdue.reaches (List.mem_singleton_self v)
  exact hreach.mem_of_closed (P := (· < g.size)) (fun _ _ _ he => hg.edge_lt he) hroot

/-- A walk works off its agenda, or breaks off where something that the root leads to
    leads back to itself. -/
theorem walk_spec (hg : g.InRange) (hroot : root < g.size) (agenda : List Event) (s : Search)
    (h : g.Walking root agenda s) :
    (∃ t, g.walk agenda s = .ok t ∧ g.Walking root [] t) ∨
    (∃ cycle, g.walk agenda s = .error cycle) ∧ ∃ v, g.Reaches root v ∧ g.DependsOn v v := by
  fun_induction Digraph.walk g agenda s with
  | case1 s => exact .inl ⟨s, rfl, h⟩
  | case2 s v rest ih => exact ih h.leave
  | case3 s v rest hpath =>
      rw [h.path] at hpath
      have hv : v ∈ [v] := List.mem_singleton_self v
      have hdue : g.Due root s.left [v] rest := h.due
      exact .inr ⟨⟨_, rfl⟩, v, hdue.reaches hv, hdue.dependsOn hv hpath⟩
  | case4 s v rest hpath hskip ih =>
      refine ih (h.skip ?_)
      rcases hskip with hentered | hout
      · exact (h.entered v hentered).resolve_left hpath
      · exact absurd (h.lt_size hg hroot) hout
  | case5 s v rest hpath hnew ih => exact ih h.enter

/-- A walk breaks off if and only if it comes to a vertex that leads back to itself. -/
theorem dependenciesInOrder_eq_error_iff (hg : g.InRange) :
    (∃ cycle, g.dependenciesInOrder? root = .error cycle) ↔
      ∃ v, g.Reaches root v ∧ g.DependsOn v v := by
  have hok : ∀ t, g.walk [.enter root] {} = .ok t →
      ¬ ∃ cycle, g.dependenciesInOrder? root = .error cycle := by
    rintro t ht ⟨cycle, hcycle⟩
    rw [dependenciesInOrder?, ht] at hcycle
    cases hcycle
  by_cases hroot : root < g.size
  · rcases walk_spec hg hroot _ _ (walking_start g root) with ⟨t, hwalk, ht⟩ | ⟨⟨cycle, hwalk⟩, hv⟩
    · -- the root has been left, and with it all that it leads to
      have hleft : root ∈ t.left := ht.due.2.resolve_right List.not_mem_nil
      refine iff_of_false (hok t hwalk) ?_
      rintro ⟨v, hr, hd⟩
      exact ht.closed.not_dependsOn_self (ht.closed.mem_of_reaches hleft hr) hd
    · refine iff_of_true ⟨cycle, ?_⟩ hv
      rw [dependenciesInOrder?, hwalk]
      rfl
  · -- a vertex outside the graph leads nowhere
    have hwalk : g.walk [.enter root] {} = .ok {} := by
      rw [walk, if_neg List.not_mem_nil, if_pos (.inr hroot), walk]
    refine iff_of_false (hok {} hwalk) ?_
    rintro ⟨v, hr, u, he, -⟩
    cases hr with
    | refl => exact hroot he.lt_size
    | step he' _ => exact hroot he'.lt_size

end Buildwright.Digraph
