import Buildwright.Proofs.Graph.Cycles

/-! # Dependencies in order

    A walk that comes to its end lists what its root depends on, each vertex once and
    behind its own successors.  Edges that lead out of the graph are passed over, so
    nothing is asked of them.  The walk works off an agenda; it is the recursion that
    enters a vertex, visits its successors and leaves it, which goes no deeper than the
    graph has vertices, whether there are cycles or not.

    * `Digraph.pruned`, `Digraph.walk_pruned` — edges that lead out of the graph;
    * `Digraph.Tracked`, `Digraph.walk_tracked` — what has been left, each vertex once;
    * `Digraph.InOrder`, `Digraph.exists_inOrder` — the list;
    * `Digraph.visit`, `Digraph.descend_eq` — the recursion;
    * `Linked.dependencies_listed` — both, for linked rules. -/

namespace Buildwright

namespace Digraph

variable {g : Digraph} {root u v w : Nat} {agenda rest : List Event} {s t : Search}
  {order : List Nat}

/-! ## Edges that lead out of the graph -/

/-- A vertex that leads into the graph is in it. -/
theorem Reaches.lt_size (h : g.Reaches v w) (hw : w < g.size) : v < g.size := by
  cases h with
  | refl => exact hw
  | step he _ => exact he.lt_size

/-- A graph whose edges all lead to greater vertices has no cycle. -/
theorem acyclic_of_lt (hup : ∀ v < g.size, ∀ w ∈ g.next v, v < w) : g.Acyclic := by
  rintro v ⟨u, he, hr⟩
  have hlt : v < v := hr.mem_of_closed (P := (v < ·))
    (fun x y hx he => Nat.lt_trans hx (hup x he.lt_size y he)) (hup v he.lt_size u he)
  exact Nat.lt_irrefl v hlt

/-- The graph without the edges that lead out of it. -/
def pruned (g : Digraph) : Digraph :=
  ⟨g.successors.map fun vs => vs.filter (· < g.size)⟩

theorem size_pruned (g : Digraph) : g.pruned.size = g.size :=
  List.length_map _

theorem next_pruned (g : Digraph) (v : Nat) : g.pruned.next v = (g.next v).filter (· < g.size) := by
  rw [next, next, pruned, List.getD_eq_getElem?_getD, List.getD_eq_getElem?_getD,
    List.getElem?_map]
  cases g.successors[v]? <;> rfl

theorem edge_pruned_iff : g.pruned.Edge v w ↔ g.Edge v w ∧ w < g.size := by
  rw [Edge, next_pruned, List.mem_filter, decide_eq_true_eq]
  exact Iff.rfl

theorem inRange_pruned (g : Digraph) : g.pruned.InRange := by
  intro vs hvs v hv
  obtain ⟨ws, -, rfl⟩ := List.mem_map.1 hvs
  rw [size_pruned]
  exact of_decide_eq_true (List.mem_filter.1 hv).2

theorem reaches_of_pruned (h : g.pruned.Reaches v w) : g.Reaches v w := by
  induction h with
  | refl v => exact .refl v
  | step he _ ih => exact .step (edge_pruned_iff.1 he).1 ih

/-- Only the last edge of a walk can lead out of the graph. -/
theorem reaches_pruned (h : g.Reaches v w) (hw : w < g.size) : g.pruned.Reaches v w := by
  induction h with
  | refl v => exact .refl v
  | step he hr ih => exact .step (edge_pruned_iff.2 ⟨he, hr.lt_size hw⟩) (ih hw)

theorem dependsOn_pruned_iff : g.pruned.DependsOn v w ↔ g.DependsOn v w ∧ w < g.size := by
  constructor
  · rintro ⟨u, he, hr⟩
    obtain ⟨he, hu⟩ := edge_pruned_iff.1 he
    have hw : w < g.size :=
      hr.mem_of_closed (P := (· < g.size)) (fun _ _ _ he => (edge_pruned_iff.1 he).2) hu
    exact ⟨⟨u, he, reaches_of_pruned hr⟩, hw⟩
  · rintro ⟨⟨u, he, hr⟩, hw⟩
    exact ⟨u, edge_pruned_iff.2 ⟨he, hr.lt_size hw⟩, reaches_pruned hr hw⟩

/-- Whether an event is about a vertex of the graph, or leaves one. -/
def counts (g : Digraph) : Event → Bool
  | .enter v => v < g.size
  | .leave _ => true

theorem filter_counts_enter (hv : v < g.size) (rest : List Event) :
    (Event.enter v :: rest).filter g.counts = .enter v :: rest.filter g.counts :=
  List.filter_cons_of_pos (p := g.counts) (decide_eq_true hv)

theorem filter_counts_map_enter (g : Digraph) (ws : List Nat) :
    (ws.map Event.enter).filter g.counts = (ws.filter (· < g.size)).map .enter := by
  rw [List.filter_map]
  rfl

/-- A walk does not enter what is not in the graph. -/
theorem walk_pruned (agenda : List Event) (s : Search) (hpath : ∀ v ∈ s.path, v < g.size) :
    g.pruned.walk (agenda.filter g.counts) s = g.walk agenda s := by
  fun_induction Digraph.walk g agenda s with
  | case1 s => rw [List.filter_nil, walk]
  | case2 s v rest ih =>
      rw [List.filter_cons_of_pos rfl, walk]
      exact ih fun x hx => hpath x (List.mem_of_mem_drop hx)
  | case3 s v rest hv =>
      rw [filter_counts_enter (hpath v hv), walk, if_pos hv]
  | case4 s v rest hv hskip ih =>
      by_cases hlt : v < g.size
      · rw [filter_counts_enter hlt, walk, if_neg hv,
          if_pos (hskip.imp id fun hnot => absurd hlt hnot)]
        exact ih hpath
      · rw [List.filter_cons_of_neg (by simpa [counts] using hlt)]
        exact ih hpath
  | case5 s v rest hv hnew ih =>
      rw [not_or, not_not] at hnew
      have hnew' : ¬ (v ∈ s.entered ∨ ¬ v < g.pruned.size) := by
        rw [size_pruned, not_or, not_not]
        exact hnew
      rw [filter_counts_enter hnew.2, walk, if_neg hv, if_neg hnew',
        next_pruned, ← filter_counts_map_enter, ← ih (List.forall_mem_cons.2 ⟨hnew.2, hpath⟩),
        List.filter_append, List.filter_cons_of_pos rfl]

/-! ## What has been left -/

/-- What holds besides while a walk from `root` works off its agenda: it is at no vertex
    twice, and the root leads to all of them. -/
structure Tracked (g : Digraph) (root : Nat) (agenda : List Event) (s : Search) : Prop
    extends g.Walking root agenda s where
  nodup : (s.path ++ s.left).Nodup
  seen : ∀ v ∈ s.path ++ s.left, v ∈ s.entered
  reached : ∀ v ∈ s.path ++ s.left, g.Reaches root v

theorem tracked_start (g : Digraph) (root : Nat) : g.Tracked root [.enter root] {} where
  toWalking := walking_start g root
  nodup := List.nodup_nil
  seen _ hv := absurd hv List.not_mem_nil
  reached _ hv := absurd hv List.not_mem_nil

/-- The vertex that is left was the last one of the path. -/
theorem Tracked.leave (h : g.Tracked root (.leave v :: rest) s) :
    g.Tracked root rest { s with path := s.path.drop 1, left := v :: s.left } := by
  have hpath : s.path = v :: onPath rest := h.path
  have hperm : (s.path.drop 1 ++ v :: s.left).Perm (s.path ++ s.left) := by
    rw [hpath]
    exact List.perm_middle
  exact {
    toWalking := h.toWalking.leave
    nodup := hperm.nodup_iff.2 h.nodup
    seen := fun x hx => h.seen x (hperm.mem_iff.1 hx)
    reached := fun x hx => h.reached x (hperm.mem_iff.1 hx) }

theorem Tracked.skip (h : g.Tracked root (.enter v :: rest) s) (hv : v ∈ s.left) :
    g.Tracked root rest s where
  toWalking := h.toWalking.skip hv
  nodup := h.nodup
  seen := h.seen
  reached := h.reached

theorem Tracked.enter (h : g.Tracked root (.enter v :: rest) s) (hv : v ∉ s.entered) :
    g.Tracked root ((g.next v).map .enter ++ .leave v :: rest)
      { s with path := v :: s.path, entered := v :: s.entered } where
  toWalking := h.toWalking.enter
  nodup := List.nodup_cons.2 ⟨fun hmem => hv (h.seen v hmem), h.nodup⟩
  seen := List.forall_mem_cons.2
    ⟨List.mem_cons_self .., fun x hx => List.mem_cons_of_mem v (h.seen x hx)⟩
  reached := by
    have hdue : g.Due root s.left [v] rest := h.due
    exact List.forall_mem_cons.2 ⟨hdue.reaches (List.mem_singleton_self v), h.reached⟩

/-- A walk keeps track until its end. -/
theorem walk_tracked (hg : g.InRange) (hroot : root < g.size) (h : g.Tracked root agenda s)
    (hok : g.walk agenda s = .ok t) : g.Tracked root [] t := by
  fun_induction Digraph.walk g agenda s with
  | case1 s =>
      obtain rfl := Except.ok.inj hok
      exact h
  | case2 s v rest ih => exact ih h.leave hok
  | case3 s v rest hv => cases hok
  | case4 s v rest hv hskip ih =>
      refine ih (h.skip ?_) hok
      rcases hskip with hentered | hout
      · exact (h.entered v hentered).resolve_left hv
      · exact absurd (h.toWalking.lt_size hg hroot) hout
  | case5 s v rest hv hnew ih => exact ih (h.enter fun hentered => hnew (.inl hentered)) hok

/-! ## The list -/

/-- Whether every vertex of a list stands behind its successors, as far as they are in the
    graph. -/
def Sorted (g : Digraph) (order : List Nat) : Prop :=
  ∀ front v back, order = front ++ v :: back → ∀ w < g.size, g.Edge v w → w ∈ front

/-- Whether a list has what a vertex depends on, each vertex of the graph once and behind
    its successors. -/
structure InOrder (g : Digraph) (root : Nat) (order : List Nat) : Prop where
  nodup : order.Nodup
  mem_iff : ∀ v, v ∈ order ↔ g.DependsOn root v ∧ v < g.size
  sorted : g.Sorted order

theorem sorted_nil : g.Sorted [] := by
  intro front v back hsplit
  exact absurd hsplit.symm (List.append_ne_nil_of_right_ne_nil _ (List.cons_ne_nil _ _))

/-- A vertex can be put behind its successors. -/
theorem Sorted.concat (h : g.Sorted order) (hu : ∀ w < g.size, g.Edge u w → w ∈ order) :
    g.Sorted (order ++ [u]) := by
  intro front v back hsplit w hw he
  rcases List.eq_nil_or_concat back with rfl | ⟨back, last, rfl⟩
  · obtain ⟨rfl, hlast⟩ := List.append_inj' hsplit rfl
    obtain rfl := (List.cons.inj hlast).1
    exact hu w hw he
  · rw [List.concat_eq_append, ← List.cons_append, ← List.append_assoc] at hsplit
    exact h front v back (List.append_inj' hsplit rfl).1 w hw he

/-- What is closed from its front is sorted from its end. -/
theorem Closed.sorted {left : List Nat} (h : g.Closed left) : g.Sorted left.reverse := by
  induction left with
  | nil => exact sorted_nil
  | cons v left ih =>
      rw [List.reverse_cons]
      exact (ih h.2).concat fun w _ he => List.mem_reverse.2 (h.1 w he)

/-- In a sorted list, walks lead to the front. -/
theorem Sorted.mem_of_reaches {front back : List Nat} (h : g.Sorted order)
    (hsplit : order = front ++ back) (hu : u ∈ front) (hr : g.Reaches u w) (hw : w < g.size) :
    w ∈ front := by
  induction hr with
  | refl => exact hu
  | step he hr ih =>
      obtain ⟨before, after, rfl⟩ := List.append_of_mem hu
      rw [List.append_assoc, List.cons_append] at hsplit
      exact ih (List.mem_append_left _ (h before _ _ hsplit _ (hr.lt_size hw) he)) hw

theorem Sorted.mem_of_dependsOn {front back : List Nat} (h : g.Sorted order)
    (hsplit : order = front ++ v :: back) (hd : g.DependsOn v w) (hw : w < g.size) :
    w ∈ front := by
  obtain ⟨u, he, hr⟩ := hd
  exact h.mem_of_reaches hsplit (h front v back hsplit u (hr.lt_size hw) he) hr hw

/-- A list stays sorted without a vertex that none of the others leads to. -/
theorem Sorted.filter (h : g.Sorted order) (hroot : ∀ v ∈ order, ¬ g.Edge v root) :
    g.Sorted (order.filter (· ≠ root)) := by
  intro front v back hsplit w hw he
  obtain ⟨front', behind, rfl, rfl, hbehind⟩ := List.filter_eq_append_iff.1 hsplit
  obtain ⟨before, after, rfl, hbefore, -, -⟩ := List.filter_eq_cons_iff.1 hbehind
  have hmem : w ∈ front' ++ before := h _ v after (by rw [List.append_assoc]) w hw he
  have hne : w ≠ root := by
    rintro rfl
    exact hroot v (by simp) he
  rcases List.mem_append.1 hmem with hmem | hmem
  · exact List.mem_filter.2 ⟨hmem, decide_eq_true hne⟩
  · exact absurd (decide_eq_true hne) (hbefore w hmem)

/-- The end of a walk without cycles lists what the root depends on. -/
theorem Tracked.inOrder (h : g.Tracked root [] t)
    (hno : ¬ ∃ v, g.Reaches root v ∧ g.DependsOn v v) (hg : g.InRange) :
    g.InOrder root (t.left.reverse.filter (· ≠ root)) := by
  have hpath : t.path = [] := h.path
  have hnodup := h.nodup
  have hreached := h.reached
  rw [hpath, List.nil_append] at hnodup hreached
  have hleft : root ∈ t.left := h.due.2.resolve_right List.not_mem_nil
  refine ⟨(List.nodup_reverse.2 hnodup).filter _, fun v => ?_, ?_⟩
  · rw [List.mem_filter, List.mem_reverse, decide_eq_true_eq]
    constructor
    · rintro ⟨hv, hne⟩
      cases hreached v hv with
      | refl => exact absurd rfl hne
      | step he hr =>
          refine ⟨⟨_, he, hr⟩, ?_⟩
          exact hr.mem_of_closed (P := (· < g.size)) (fun _ _ _ he => hg.edge_lt he) (hg.edge_lt he)
    · rintro ⟨hd, -⟩
      obtain ⟨u, he, hr⟩ := id hd
      refine ⟨h.closed.mem_of_reaches hleft (.step he hr), ?_⟩
      rintro rfl
      exact hno ⟨v, .refl v, hd⟩
  · refine h.closed.sorted.filter fun v hv he => hno ⟨root, .refl root, ?_⟩
    -- an edge back to the root closes a cycle
    cases hreached v (List.mem_reverse.1 hv) with
    | refl => exact ⟨root, he, .refl root⟩
    | step he' hr => exact ⟨_, he', hr.tail he⟩

/-- Without a cycle on the way, what a vertex of the graph depends on is listed. -/
theorem exists_inOrder_of_inRange (hg : g.InRange) (hroot : root < g.size)
    (hno : ¬ ∃ v, g.Reaches root v ∧ g.DependsOn v v) :
    ∃ order, g.dependenciesInOrder? root = .ok order ∧ g.InOrder root order := by
  rcases walk_spec hg hroot _ _ (walking_start g root) with ⟨t, hwalk, -⟩ | ⟨-, hcycle⟩
  · refine ⟨t.left.reverse.filter (· ≠ root), ?_,
      (walk_tracked hg hroot (tracked_start g root) hwalk).inOrder hno hg⟩
    rw [dependenciesInOrder?, hwalk]
    rfl
  · exact absurd hcycle hno

/-- Edges that lead out of the graph do not change what is listed. -/
theorem dependenciesInOrder_pruned (hroot : root < g.size) :
    g.pruned.dependenciesInOrder? root = g.dependenciesInOrder? root := by
  have hwalk := walk_pruned (g := g) [.enter root] {} fun _ hv => absurd hv List.not_mem_nil
  rw [filter_counts_enter hroot, List.filter_nil] at hwalk
  rw [dependenciesInOrder?, dependenciesInOrder?, hwalk]

theorem InOrder.of_pruned (h : g.pruned.InOrder root order) : g.InOrder root order where
  nodup := h.nodup
  mem_iff v := by
    rw [h.mem_iff v, size_pruned, dependsOn_pruned_iff, and_assoc, and_self]
  sorted front v back hsplit w hw he :=
    h.sorted front v back hsplit w (by rwa [size_pruned]) (edge_pruned_iff.2 ⟨he, hw⟩)

/-- **What a vertex depends on is listed** unless there is a cycle on the way. -/
theorem exists_inOrder (hno : ¬ ∃ v, g.Reaches root v ∧ g.DependsOn v v) :
    ∃ order, g.dependenciesInOrder? root = .ok order ∧ g.InOrder root order := by
  by_cases hroot : root < g.size
  · have hno' : ¬ ∃ v, g.pruned.Reaches root v ∧ g.pruned.DependsOn v v := by
      rintro ⟨v, hr, hd⟩
      exact hno ⟨v, reaches_of_pruned hr, (dependsOn_pruned_iff.1 hd).1⟩
    obtain ⟨order, horder, hin⟩ := exists_inOrder_of_inRange (inRange_pruned g)
      (by rwa [size_pruned]) hno'
    rw [dependenciesInOrder_pruned hroot] at horder
    exact ⟨order, horder, hin.of_pruned⟩
  · -- what is no vertex leads nowhere
    have hwalk : g.walk [.enter root] {} = .ok {} := by
      rw [walk, if_neg List.not_mem_nil, if_pos (.inr hroot), walk]
    refine ⟨[], by rw [dependenciesInOrder?, hwalk]; rfl, List.nodup_nil, fun v => ?_, sorted_nil⟩
    refine iff_of_false List.not_mem_nil ?_
    rintro ⟨⟨u, he, -⟩, -⟩
    exact hroot he.lt_size

/-- A list that is made has what the root depends on: a cycle on the way would have been met. -/
theorem inOrder_of_eq_ok (h : g.dependenciesInOrder? root = .ok order) : g.InOrder root order := by
  have hno : ¬ ∃ v, g.Reaches root v ∧ g.DependsOn v v := by
    rintro ⟨v, hr, hd⟩
    obtain ⟨u, he, -⟩ := id hd
    have hcycle : ∃ v, g.pruned.Reaches root v ∧ g.pruned.DependsOn v v :=
      ⟨v, reaches_pruned hr he.lt_size, dependsOn_pruned_iff.2 ⟨hd, he.lt_size⟩⟩
    obtain ⟨cycle, herror⟩ := (dependenciesInOrder_eq_error_iff (inRange_pruned g)).2 hcycle
    rw [dependenciesInOrder_pruned (hr.lt_size he.lt_size), h] at herror
    cases herror
  obtain ⟨order', horder', hin⟩ := exists_inOrder hno
  obtain rfl := Except.ok.inj (h.symm.trans horder')
  exact hin

/-- With the root behind it, the list is sorted still. -/
theorem InOrder.sorted_concat (h : g.InOrder root order) : g.Sorted (order ++ [root]) :=
  h.sorted.concat fun w hw he => (h.mem_iff w).2 ⟨⟨w, he, .refl w⟩, hw⟩

/-! ## The recursion -/

/-- Visit the vertices of a list one after the other, up to the first cycle. -/
def visitAll (visit : Nat → Search → Option (Except (List Nat) Search)) :
    List Nat → Search → Option (Except (List Nat) Search)
  | [], s => some (.ok s)
  | v :: vs, s =>
    match visit v s with
    | none => none
    | some (.error cycle) => some (.error cycle)
    | some (.ok t) => visitAll visit vs t

/-- The walk as a recursion down to a given depth: a vertex is entered, its successors are
    visited, and it is left.  There is no result if the depth does not suffice. -/
def visit (g : Digraph) : Nat → Nat → Search → Option (Except (List Nat) Search)
  | 0, _, _ => none
  | depth + 1, v, s =>
    if v ∈ s.path then some (.error (Cycle.close (Cycle.rotate (Cycle.ofPath s.path v))))
    else if v ∈ s.entered ∨ ¬ v < g.size then some (.ok s)
    else
      match visitAll (g.visit depth) (g.next v)
          { s with path := v :: s.path, entered := v :: s.entered } with
      | none => none
      | some (.error cycle) => some (.error cycle)
      | some (.ok t) => some (.ok { t with path := t.path.drop 1, left := v :: t.left })

/-- What the recursion lists, if the depth suffices. -/
def descend (g : Digraph) (depth root : Nat) : Option (Except (List Nat) (List Nat)) :=
  (g.visit depth root {}).map fun result =>
    result.map fun s => s.left.reverse.filter (· ≠ root)

/-- An agenda is worked off part by part. -/
theorem walk_append (agenda rest : List Event) (s : Search) :
    g.walk (agenda ++ rest) s = g.walk agenda s >>= g.walk rest := by
  fun_induction Digraph.walk g agenda s with
  | case1 s => rfl
  | case2 s v agenda ih => rw [List.cons_append, walk, ih]
  | case3 s v agenda hv =>
      rw [List.cons_append, walk, if_pos hv]
      rfl
  | case4 s v agenda hv hskip ih => rw [List.cons_append, walk, if_neg hv, if_pos hskip, ih]
  | case5 s v agenda hv hnew ih =>
      rw [List.cons_append, walk, if_neg hv, if_neg hnew, ← ih, List.append_assoc,
        List.cons_append]

/-- What has been entered stays so. -/
theorem mem_entered_of_walk (hok : g.walk agenda s = .ok t) (hv : v ∈ s.entered) :
    v ∈ t.entered := by
  fun_induction Digraph.walk g agenda s with
  | case1 s =>
      obtain rfl := Except.ok.inj hok
      exact hv
  | case2 s x rest ih => exact ih hok hv
  | case3 s x rest hx => cases hok
  | case4 s x rest hx hskip ih => exact ih hok hv
  | case5 s x rest hx hnew ih => exact ih hok (List.mem_cons_of_mem x hv)

theorem unseen_le_of_walk (hok : g.walk agenda s = .ok t) :
    g.unseen t.entered ≤ g.unseen s.entered := by
  refine List.countP_mono_left fun x _ hx => ?_
  rw [decide_eq_true_eq] at hx ⊢
  exact fun hmem => hx (mem_entered_of_walk hok hmem)

/-- A depth that suffices for every vertex suffices for all of them in turn. -/
theorem visitAll_eq {depth : Nat}
    (hvisit : ∀ v s, g.unseen s.entered < depth → g.visit depth v s = some (g.walk [.enter v] s))
    (ws : List Nat) (s : Search) (hs : g.unseen s.entered < depth) :
    visitAll (g.visit depth) ws s = some (g.walk (ws.map .enter) s) := by
  induction ws generalizing s with
  | nil => rw [visitAll, List.map_nil, walk]
  | cons w ws ih =>
      have hsplit : (w :: ws).map Event.enter = [.enter w] ++ ws.map .enter := rfl
      rw [visitAll, hvisit w s hs, hsplit, walk_append]
      cases hwalk : g.walk [.enter w] s with
      | error cycle => rfl
      | ok t => exact ih t (Nat.lt_of_le_of_lt (unseen_le_of_walk hwalk) hs)

/-- **The recursion comes to its end**: it is the walk, and goes no deeper than there are
    vertices left to enter. -/
theorem visit_eq {depth : Nat} (v : Nat) (s : Search) (hs : g.unseen s.entered < depth) :
    g.visit depth v s = some (g.walk [.enter v] s) := by
  induction depth generalizing v s with
  | zero => exact absurd hs (Nat.not_lt_zero _)
  | succ depth ih =>
      rw [visit, walk]
      by_cases hv : v ∈ s.path
      · rw [if_pos hv, if_pos hv]
      by_cases hskip : v ∈ s.entered ∨ ¬ v < g.size
      · rw [if_neg hv, if_neg hv, if_pos hskip, if_pos hskip, walk]
      · rw [if_neg hv, if_neg hv, if_neg hskip, if_neg hskip, walk_append]
        have hlt : g.unseen (v :: s.entered) < depth := by
          rw [not_or, not_not] at hskip
          exact Nat.lt_of_lt_of_le (unseen_cons_lt hskip.2 hskip.1) (Nat.le_of_lt_succ hs)
        rw [visitAll_eq ih (g.next v) _ hlt]
        cases g.walk ((g.next v).map .enter)
            { s with path := v :: s.path, entered := v :: s.entered } with
        | error cycle => rfl
        | ok t =>
            show _ = some (g.walk [.leave v] t)
            rw [walk, walk]

/-- No recursion is deeper than the graph has vertices, and one more. -/
theorem descend_eq {depth : Nat} (hdepth : g.size < depth) (root : Nat) :
    g.descend depth root = some (g.dependenciesInOrder? root) := by
  have hall : g.unseen [] = g.size := by
    rw [unseen, vertices, List.countP_eq_length.2 fun v _ => decide_eq_true List.not_mem_nil,
      List.length_range]
  rw [descend, visit_eq root {} (by rw [hall]; exact hdepth), dependenciesInOrder?]
  cases g.walk [.enter root] {} <;> rfl

end Digraph

namespace Linked

/-- **Dependencies in order.** Unless a rule leads to a cycle, everything that it depends on is
    listed: each rule once, without the rule itself, and behind all of its own direct
    dependencies.  Whether there are cycles or not, the recursion that makes the list goes no
    deeper than there are rules, and so comes to its end. -/
theorem dependencies_listed (l : Linked) (r : RuleId) :
    (l.graph.InRange → (¬ ∃ v, l.graph.Reaches r v ∧ l.graph.DependsOn v v) →
      ∃ order, l.dependenciesInOrder r = .ok order ∧ order.Nodup ∧ r ∉ order ∧
        (∀ v, v ∈ order ↔ l.graph.DependsOn r v) ∧
        ∀ front v back, order = front ++ v :: back → ∀ w, l.graph.Edge v w → w ∈ front) ∧
    ∀ depth, l.graph.size < depth →
      l.graph.descend depth r = some (l.graph.dependenciesInOrder? r) := by
  refine ⟨fun hg hno => ?_, fun depth hdepth => Digraph.descend_eq hdepth r⟩
  obtain ⟨order, horder, hin⟩ := Digraph.exists_inOrder hno
  refine ⟨order, dependenciesInOrder_eq_ok_iff.2 horder, hin.nodup, fun hr => ?_, fun v => ?_, ?_⟩
  · exact hno ⟨r, .refl r, ((hin.mem_iff r).1 hr).1⟩
  · rw [hin.mem_iff v, and_iff_left_iff_imp]
    rintro ⟨u, he, hr⟩
    exact hr.mem_of_closed (P := (· < l.graph.size)) (fun _ _ _ he => hg.edge_lt he) (hg.edge_lt he)
  · exact fun front v back hsplit w he => hin.sorted front v back hsplit w (hg.edge_lt he) he

/-- A rule `app` that depends on `base` in two ways. -/
def diamond : Linked where
  set := {
    rules := ["app", "left", "right", "base"].mapIdx fun id name =>
      { id, package := "pkg", declaration := { (default : Declaration) with name } }
    packages := [] }
  graph := ⟨[[1, 2], [3], [3], []]⟩
  size_eq := rfl

/-- What `app` depends on is listed, with `base` in front and once; and where a rule leads to a
    loop, the recursion comes to its end as well, with the loop. -/
theorem diamond_listed :
    diamond.graph.InRange ∧ diamond.graph.Acyclic ∧
    (∃ order, diamond.dependenciesInOrder 0 = .ok order ∧ order = [3, 1, 2] ∧
      (∀ v, v ∈ order ↔ diamond.graph.DependsOn 0 v) ∧ 0 ∉ order) ∧
    sharedLoop.graph.size < 6 ∧ sharedLoop.graph.descend 6 0 = some (.error [3, 3]) := by
  have hg : diamond.graph.InRange := by decide
  have ha : diamond.graph.Acyclic := Digraph.acyclic_of_lt (by decide)
  obtain ⟨hlisted, -⟩ := dependencies_listed diamond 0
  obtain ⟨-, hdescend⟩ := dependencies_listed sharedLoop 0
  obtain ⟨order, horder, -, hroot, hmem, -⟩ := hlisted hg fun ⟨v, _, hd⟩ => ha v hd
  have hwalk : diamond.dependenciesInOrder 0 = .ok [3, 1, 2] := by cbv
  have hloop : sharedLoop.graph.dependenciesInOrder? 0 = .error [3, 3] := by cbv
  refine ⟨hg, ha, ⟨order, horder, ?_, hmem, hroot⟩, by decide, ?_⟩
  · exact Except.ok.inj (horder.symm.trans hwalk)
  · rw [hdescend 6 (by decide), hloop]

end Linked

end Buildwright
