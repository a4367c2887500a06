import Buildwright.Proofs.Graph.Dependencies
import Buildwright.Proofs.Renumbering.Walk
import Mathlib.Data.List.Cycle
import Mathlib.Data.List.MinMax

/-! # Cycles that walks report

    The path of a walk is a path of edges, each vertex of it a successor of the one before.
    So where the walk comes back to a vertex of its path, the part of the path since then is
    a round of edges.  It is reported from its least vertex on, and so in one way only,
    whichever of its vertices the walk entered first.

    * `Cycle.rotate_eq_of_isRotated` — one way to write down a round;
    * `Cycle.canonical` — the same of a round that is written with its end;
    * `Digraph.Due.isChain` — the path is one of edges;
    * `Digraph.IsRound`, `Digraph.walk_error` — what a walk breaks off with;
    * `Linked.reported_cycle` — the rules that a fault names. -/

namespace Buildwright

/-! ## Rounds begun at their least vertex -/

namespace Cycle

variable {round round' : List Nat}

theorem least_cons_cons (v w : Nat) (ws : List Nat) :
    least (v :: w :: ws) = min v (least (w :: ws)) := rfl

theorem least_mem (h : round ≠ []) : least round ∈ round := by
  induction round with
  | nil => exact absurd rfl h
  | cons v vs ih =>
      cases vs with
      | nil => exact List.mem_singleton_self v
      | cons w ws =>
          rw [least_cons_cons]
          rcases min_choice v (least (w :: ws)) with hmin | hmin
          · rw [hmin]
            exact List.mem_cons_self ..
          · rw [hmin]
            exact List.mem_cons_of_mem v (ih (List.cons_ne_nil _ _))

theorem least_le {v : Nat} (h : v ∈ round) : least round ≤ v := by
  induction round with
  | nil => exact absurd h List.not_mem_nil
  | cons u us ih =>
      cases us with
      | nil => exact (List.mem_singleton.1 h).ge
      | cons w ws =>
          rcases List.mem_cons.1 h with rfl | h
          · exact min_le_left _ _
          · exact (min_le_right _ _).trans (ih h)

/-- The least vertex does not depend on where the round begins. -/
theorem least_eq_of_isRotated (h : round.IsRotated round') : least round = least round' := by
  by_cases hnil : round = []
  · subst hnil
    rw [List.isRotated_nil_iff'.1 h]
  · have hnil' : round' ≠ [] := by
      rintro rfl
      exact hnil (List.isRotated_nil_iff.1 h)
    exact le_antisymm (least_le (h.mem_iff.2 (least_mem hnil')))
      (least_le (h.mem_iff.1 (least_mem hnil)))

/-- A rotated round begins at its least vertex. -/
theorem exists_rotate_eq (h : round ≠ []) : ∃ vs, rotate round = least round :: vs := by
  have hdrop : round.dropWhile (· ≠ least round) ≠ [] := by
    intro hnil
    have hall := List.dropWhile_eq_nil_iff.1 hnil (least round) (least_mem h)
    exact absurd rfl (of_decide_eq_true hall)
  obtain ⟨v, vs, hcons⟩ := List.exists_cons_of_ne_nil hdrop
  have hv : v = least round := by
    have hhead := List.head?_dropWhile_not (· ≠ least round) round
    rw [hcons] at hhead
    exact not_not.1 (of_decide_eq_false hhead)
  refine ⟨vs ++ round.takeWhile (· ≠ least round), ?_⟩
  rw [rotate, hcons, hv, List.cons_append]

/-- Rounds of distinct vertices that begin at the same one are the same. -/
theorem eq_of_isRotated_cons {v : Nat} {vs vs' : List Nat} (hnodup : (v :: vs).Nodup)
    (h : (v :: vs).IsRotated (v :: vs')) : vs = vs' := by
  obtain ⟨n, hn, hrotate⟩ := List.isRotated_iff_mod.1 h
  rcases Nat.lt_or_eq_of_le hn with hlt | rfl
  · cases n with
    | zero =>
        rw [List.rotate_zero] at hrotate
        exact (List.cons.inj hrotate).2
    | succ n =>
        -- then the first vertex would be among the others as well
        have hhead : (v :: vs)[n + 1]? = some v := by
          rw [← List.head?_rotate hlt, hrotate, List.head?_cons]
        rw [List.getElem?_cons_succ] at hhead
        exact absurd (List.mem_of_getElem? hhead) (List.nodup_cons.1 hnodup).1
  · rw [List.rotate_length] at hrotate
    exact (List.cons.inj hrotate).2

/-- **One way to write down a round**: where it begins does not matter. -/
theorem rotate_eq_of_isRotated (hnodup : round.Nodup) (h : round.IsRotated round') :
    rotate round = rotate round' := by
  by_cases hnil : round = []
  · subst hnil
    rw [List.isRotated_nil_iff'.1 h]
  have hnil' : round' ≠ [] := by
    rintro rfl
    exact hnil (List.isRotated_nil_iff.1 h)
  have hrotated : (rotate round).IsRotated (rotate round') :=
    (rotate_isRotated round).trans (h.trans (rotate_isRotated round').symm)
  have hnodup' : (rotate round).Nodup := (rotate_isRotated round).nodup_iff.2 hnodup
  obtain ⟨vs, hvs⟩ := exists_rotate_eq hnil
  obtain ⟨vs', hvs'⟩ := exists_rotate_eq hnil'
  rw [← least_eq_of_isRotated h] at hvs'
  rw [hvs, hvs'] at hrotated
  rw [hvs] at hnodup'
  rw [hvs, hvs', eq_of_isRotated_cons hnodup' hrotated]

/-- A round that is written with its first vertex at the end, begun at its least vertex. -/
def canonical (closed : List Nat) : List Nat :=
  if closed.length < 2 then closed else close (rotate closed.dropLast)

theorem canonical_close (round : List Nat) : canonical (close round) = close (rotate round) := by
  cases round with
  | nil => rfl
  | cons v vs =>
      have hlength : ¬ (close (v :: vs)).length < 2 := by
        simp [close]
      have hlast : (close (v :: vs)).dropLast = v :: vs := List.dropLast_concat
      rw [canonical, if_neg hlength, hlast]

/-- A round leads along edges back to where it begins, wherever that is. -/
theorem isChain_close_iff {R : Nat → Nat → Prop} :
    (close round).IsChain R ↔ Cycle.Chain R (round : Cycle Nat) := by
  cases round with
  | nil => exact iff_of_true .nil (Cycle.Chain.nil R)
  | cons v vs => exact (Cycle.chain_coe_cons R v vs).symm

theorem isChain_close_rotate {R : Nat → Nat → Prop} (h : (close round).IsChain R) :
    (close (rotate round)).IsChain R := by
  rw [isChain_close_iff, Cycle.coe_eq_coe.2 (rotate_isRotated round), ← isChain_close_iff]
  exact h

end Cycle

/-! ## Rounds of edges -/

namespace Digraph

variable {g : Digraph} {root v w : Nat} {left above round path cycle : List Nat}
  {agenda rest : List Event} {s : Search}

/-- Whether vertices form a round of edges: each of them once, with an edge to the next one and
    from the last one to the first. -/
structure IsRound (g : Digraph) (round : List Nat) : Prop where
  ne_nil : round ≠ []
  nodup : round.Nodup
  isChain : (Cycle.close round).IsChain g.Edge

theorem IsRound.rotate (h : g.IsRound round) : g.IsRound (Cycle.rotate round) where
  ne_nil hnil := by
    obtain ⟨vs, hvs⟩ := Cycle.exists_rotate_eq h.ne_nil
    exact absurd (hvs.symm.trans hnil) (List.cons_ne_nil _ _)
  nodup := (Cycle.rotate_isRotated round).nodup_iff.2 h.nodup
  isChain := Cycle.isChain_close_rotate h.isChain

/-- A vertex of the segment and the path below it are joined by edges, from the end of the path
    to the vertex. -/
theorem Due.isChain (h : g.Due root left above agenda) (hw : w ∈ above) :
    (w :: onPath agenda).IsChain fun a b => g.Edge b a := by
  induction agenda generalizing above w with
  | nil => exact .singleton w
  | cons event rest ih =>
      cases event with
      | enter v => exact ih h (List.mem_cons_of_mem v hw)
      | leave v => exact .cons_cons (h.1 w hw) (ih h.2.2 (List.mem_singleton_self v))

/-- What a path leads through since a vertex, to which its last one has an edge. -/
theorem isRound_ofPath (hchain : (v :: path).IsChain fun a b => g.Edge b a)
    (hnodup : path.Nodup) (hv : v ∈ path) : g.IsRound (Cycle.ofPath path v) := by
  obtain ⟨latest, before, rfl, hlatest⟩ := List.eq_append_cons_of_mem hv
  have htake : (latest ++ v :: before).takeWhile (· ≠ v) = latest := by
    have hne : ∀ u ∈ latest, decide (u ≠ v) = true := by
      intro u hu
      refine decide_eq_true ?_
      rintro rfl
      exact hlatest hu
    rw [List.takeWhile_append_of_pos hne, List.takeWhile_cons_of_neg (by simp), List.append_nil]
  rw [Cycle.ofPath, htake]
  refine ⟨List.cons_ne_nil _ _, List.nodup_cons.2 ⟨?_, ?_⟩, ?_⟩
  · rwa [List.mem_reverse]
  · exact List.nodup_reverse.2 (List.Nodup.of_append_left hnodup)
  · -- the round is the path since `v` and back to it, read from its end
    have hback : Cycle.close (v :: latest.reverse) = (v :: (latest ++ [v])).reverse := by
      simp [Cycle.close]
    have hsplit : v :: (latest ++ v :: before) = v :: (latest ++ [v]) ++ before := by simp
    rw [hsplit] at hchain
    rw [hback, List.isChain_reverse]
    exact hchain.left_of_append

/-- A walk breaks off where it comes back to a vertex of its path. -/
theorem walk_error (hg : g.InRange) (hroot : root < g.size) (h : g.Tracked root agenda s)
    (hcycle : g.walk agenda s = .error cycle) : ∃ t v rest, g.Tracked root (.enter v :: rest) t ∧
      v ∈ t.path ∧ cycle = Cycle.close (Cycle.rotate (Cycle.ofPath t.path v)) := by
  fun_induction Digraph.walk g agenda s with
  | case1 s => cases hcycle
  | case2 s v rest ih => exact ih h.leave hcycle
  | case3 s v rest hv => exact ⟨s, v, rest, h, hv, (Except.error.inj hcycle).symm⟩
  | case4 s v rest hv hskip ih =>
      refine ih (h.skip ?_) hcycle
      rcases hskip with hentered | hout
      · exact (h.entered v hentered).resolve_left hv
      · exact absurd (h.toWalking.lt_size hg hroot) hout
  | case5 s v rest hv hnew ih => exact ih (h.enter fun hentered => hnew (.inl hentered)) hcycle

/-- A walk breaks off with a round of edges that its root leads to. -/
theorem exists_isRound (hg : g.InRange) (hcycle : g.dependenciesInOrder? root = .error cycle) :
    ∃ round, g.IsRound round ∧ (∀ w ∈ round, w < g.size ∧ g.Reaches root w) ∧
      cycle = Cycle.close (Cycle.rotate round) := by
  obtain ⟨v, hreach, hdepends⟩ := (dependenciesInOrder_eq_error_iff hg).1 ⟨cycle, hcycle⟩
  obtain ⟨u, hedge, -⟩ := hdepends
  have hroot : root < g.size := hreach.lt_size hedge.lt_size
  have hwalk : g.walk [.enter root] {} = .error cycle := by
    rw [dependenciesInOrder?] at hcycle
    cases hresult : g.walk [.enter root] {} with
    | ok t =>
        rw [hresult] at hcycle
        cases hcycle
    | error cycle' =>
        rw [hresult] at hcycle
        exact congrArg Except.error (Except.error.inj hcycle)
  obtain ⟨t, v, rest, ht, hv, rfl⟩ := walk_error hg hroot (tracked_start g root) hwalk
  have hdue : g.Due root t.left [v] rest := ht.due
  have hchain := hdue.isChain (List.mem_singleton_self v)
  have hpath : t.path = onPath rest := ht.path
  rw [← hpath] at hchain
  refine ⟨_, isRound_ofPath hchain (List.Nodup.of_append_left ht.nodup) hv, fun w hw => ?_, rfl⟩
  have hmem : w ∈ t.path := by
    rcases List.mem_cons.1 hw with rfl | hw
    · exact hv
    · exact (List.takeWhile_sublist _).subset (List.mem_reverse.1 hw)
  have hreached : g.Reaches root w := ht.reached w (List.mem_append_left _ hmem)
  exact ⟨hreached.mem_of_closed (P := (· < g.size)) (fun _ _ _ he => hg.edge_lt he) hroot, hreached⟩

end Digraph

namespace Linked

/-- **A reported cycle is one.** A walk that fails names the rules of a round of edges that its
    root leads to: from the rule of the least number on and back to it, each other rule once.
    It does not matter which of the rules was entered first, since whatever rule a round is
    begun at, it is written down in one way. -/
theorem reported_cycle (l : Linked) :
    (l.graph.InRange → ∀ r fault, l.dependenciesInOrder r = .error fault → ∃ v vs,
      fault = .cycle ((v :: vs ++ [v]).map l.set.fullName) ∧
      (v :: vs ++ [v]).IsChain l.graph.Edge ∧ (v :: vs).Nodup ∧ (∀ w ∈ vs, v < w) ∧
      (∀ w ∈ v :: vs, w < l.set.rules.length ∧ l.graph.Reaches r w) ∧
      ∀ round, round.IsRotated (v :: vs) →
        Cycle.canonical (Cycle.close round) = v :: vs ++ [v]) ∧
    ∀ round round' : List Nat, round.Nodup → round.IsRotated round' →
      Cycle.canonical (Cycle.close round) = Cycle.canonical (Cycle.close round') := by
  have hone : ∀ round round' : List Nat, round.Nodup → round.IsRotated round' →
      Cycle.canonical (Cycle.close round) = Cycle.canonical (Cycle.close round') := by
    intro round round' hnodup hrotated
    rw [Cycle.canonical_close, Cycle.canonical_close,
      Cycle.rotate_eq_of_isRotated hnodup hrotated]
  refine ⟨fun hg r fault hfault => ?_, hone⟩
  obtain ⟨cycle, hcycle, rfl⟩ := dependenciesInOrder_eq_error_iff.1 hfault
  obtain ⟨round, hround, hreach, rfl⟩ := Digraph.exists_isRound hg hcycle
  obtain ⟨vs, hvs⟩ := Cycle.exists_rotate_eq hround.ne_nil
  have hrotated := Cycle.rotate_isRotated round
  obtain ⟨-, hnodup, hchain⟩ := hround.rotate
  rw [hvs] at hrotated hnodup hchain
  refine ⟨Cycle.least round, vs, ?_, hchain, hnodup, fun w hw => ?_, fun w hw => ?_, ?_⟩
  · rw [hvs]
    rfl
  · have hle : Cycle.least round ≤ w :=
      Cycle.least_le (hrotated.mem_iff.1 (List.mem_cons_of_mem _ hw))
    refine lt_of_le_of_ne hle ?_
    rintro rfl
    exact (List.nodup_cons.1 hnodup).1 hw
  · rw [← l.size_eq]
    exact hreach w (hrotated.mem_iff.1 hw)
  · intro round' hrotated'
    rw [hone round' (Cycle.least round :: vs) (hrotated'.nodup_iff.2 hnodup) hrotated',
      Cycle.canonical_close, Cycle.rotate_eq_of_isRotated hnodup hrotated, hvs]
    rfl

/-- A rule `app` that leads into the middle of a round of three others. -/
def enteredInside : Linked where
  set := {
    rules := ["app", "first", "second", "third"].mapIdx fun id name =>
      { id, package := "pkg", declaration := { (default : Declaration) with name } }
    packages := [] }
  graph := ⟨[[3], [3], [1], [2]]⟩
  size_eq := rfl

/-- The round is reported from its least rule on, from `app` as from the rules of the round, and
    has edges all along. -/
theorem enteredInside_reported : enteredInside.graph.InRange ∧
    enteredInside.dependenciesInOrder 0 = enteredInside.dependenciesInOrder 2 ∧
    (∃ v vs, enteredInside.dependenciesInOrder 0 =
        .error (.cycle ((v :: vs ++ [v]).map enteredInside.set.fullName)) ∧
      (v :: vs ++ [v]).IsChain enteredInside.graph.Edge) ∧
    Cycle.canonical [3, 2, 1, 3] = [1, 3, 2, 1] ∧
    Cycle.canonical [3, 2, 1, 3] = Cycle.canonical [2, 1, 3, 2] := by
  have hg : enteredInside.graph.InRange := by decide
  obtain ⟨hwalk, hone⟩ := reported_cycle enteredInside
  have happ : enteredInside.dependenciesInOrder 0 =
      .error (.cycle ["pkg/first@", "pkg/third@", "pkg/second@", "pkg/first@"]) := by cbv
  have hsecond : enteredInside.dependenciesInOrder 2 =
      .error (.cycle ["pkg/first@", "pkg/third@", "pkg/second@", "pkg/first@"]) := by cbv
  obtain ⟨v, vs, hfault, hchain, -⟩ := hwalk hg 0 _ happ
  refine ⟨hg, happ.trans hsecond.symm, ⟨v, vs, happ.trans (congrArg _ hfault), hchain⟩,
    by decide, ?_⟩
  exact hone [3, 2, 1] [2, 1, 3] (by decide) ⟨1, rfl⟩

end Linked

end Buildwright
