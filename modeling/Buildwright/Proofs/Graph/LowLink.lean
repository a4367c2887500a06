import Buildwright.Graph.LowLink
import Buildwright.Proofs.Graph.Reachability
import Buildwright.Proofs.Lookup

/-! # The invariant of the search for strong components

    The stack of the search falls into layers, one for every vertex on the
    path: the vertex itself and, above it, the vertices that were entered from
    it and left again without completing a component.  What a layer knows:

    * its vertices lead to each other (`Layer.forth`, `Layer.back`);
    * its low number is the entry number of a vertex on the stack that it
      leads to (`Layer.low`);
    * every edge that has been followed from it ends in a complete component
      or at an entry number not below its low (`Layer.followed`,
      `Layer.exhausted`).

    So when a vertex is left with its own number as low, no edge leads from its
    layer to the stack below, and the layer is a component.  The induction is
    on the steps of the search; the invariant is `Invariant`, and the search
    from a list of roots ends in a state that has it (`invariant_lowLink`). -/

namespace Buildwright.LowLink

variable {g : Digraph} {s t : LowLink}

/-! ## Entry numbers -/

/-- The entry numbers are given once each, in order, to vertices of the graph. -/
structure Numbered (g : Digraph) (s : LowLink) : Prop where
  nodup : s.entered.Nodup
  descending : s.numbers.Pairwise fun e f => f.2 < e.2
  lt_length : ∀ e ∈ s.numbers, e.2 < s.numbers.length
  inGraph : ∀ v ∈ s.entered, v < g.size

/-- Of two vertices that were entered one after the other, the later one has
    the greater number. -/
theorem Numbered.pairwise_entered (h : Numbered g s) :
    s.entered.Pairwise fun v w =>
      ∀ m n, (v, m) ∈ s.numbers → (w, n) ∈ s.numbers → n < m := by
  refine List.pairwise_map.2 (h.descending.imp_of_mem ?_)
  intro e f he hf hlt m n hm hn
  rw [eq_of_mem_of_nodup_keys h.nodup hm he, eq_of_mem_of_nodup_keys h.nodup hn hf]
  exact hlt

/-- A vertex that has been entered has a number. -/
theorem exists_number {v : Nat} (h : v ∈ s.entered) : ∃ n, (v, n) ∈ s.numbers := by
  obtain ⟨e, he, rfl⟩ := List.mem_map.1 h
  exact ⟨e.2, he⟩

theorem mem_entered {v n : Nat} (h : (v, n) ∈ s.numbers) : v ∈ s.entered :=
  List.mem_map.2 ⟨_, h, rfl⟩

/-- Entering a new vertex of the graph keeps the numbers in order. -/
theorem Numbered.enter (h : Numbered g s) {v : Nat} (hv : v < g.size) (hn : v ∉ s.entered) :
    Numbered g (s.enter g v) where
  nodup := List.nodup_cons.2 ⟨hn, h.nodup⟩
  descending := List.pairwise_cons.2 ⟨h.lt_length, h.descending⟩
  lt_length := by
    intro e he
    rcases List.mem_cons.1 he with rfl | he
    · exact Nat.lt_succ_self _
    · exact Nat.lt_succ_of_lt (h.lt_length e he)
  inGraph := by
    intro w hw
    rcases List.mem_cons.1 hw with rfl | hw
    · exact hv
    · exact h.inGraph w hw

/-! ## Layers of the stack -/

/-- Whether a vertex has a component, or an entry number that is not below `low`. -/
def Covered (s : LowLink) (low w : Nat) : Prop :=
  w ∈ s.closed.flatten ∨ ∃ n, (w, n) ∈ s.numbers ∧ low ≤ n

/-- Whether a search knows no less than another one. -/
structure Extends (s t : LowLink) : Prop where
  numbers : ∀ e ∈ s.numbers, e ∈ t.numbers
  closed : ∀ v ∈ s.closed.flatten, v ∈ t.closed.flatten

theorem Extends.refl (s : LowLink) : s.Extends s :=
  ⟨fun _ h => h, fun _ h => h⟩

theorem Covered.mono (hst : s.Extends t) {low low' w : Nat} (hle : low' ≤ low)
    (h : s.Covered low w) : t.Covered low' w := by
  rcases h with hc | ⟨n, hn, hlow⟩
  · exact .inl (hst.closed w hc)
  · exact .inr ⟨n, hst.numbers _ hn, Nat.le_trans hle hlow⟩

/-- What the search knows of a vertex on its path: `above` lies above it on the
    stack, up to the next vertex of the path, and `below` is the stack below. -/
structure Layer (g : Digraph) (s : LowLink) (f : Frame) (above below : List Nat) : Prop where
  forth : ∀ x ∈ above, g.Reaches f.vertex x
  back : ∀ x ∈ above, g.Reaches x f.vertex
  low : ∃ y ∈ f.vertex :: below, (y, f.low) ∈ s.numbers ∧ g.Reaches f.vertex y
  followed : ∃ done, g.next f.vertex = done ++ f.rest ∧ ∀ w ∈ done, s.Covered f.low w
  exhausted : ∀ x ∈ above, ∀ w, g.Edge x w → s.Covered f.low w

/-- A layer stays one when the search learns more. -/
theorem Layer.mono (hst : s.Extends t) {f : Frame} {above below : List Nat}
    (h : Layer g s f above below) : Layer g t f above below where
  forth := h.forth
  back := h.back
  low := by
    obtain ⟨y, hy, hn, hr⟩ := h.low
    exact ⟨y, hy, hst.numbers _ hn, hr⟩
  followed := by
    obtain ⟨done, hd, hc⟩ := h.followed
    exact ⟨done, hd, fun w hw => (hc w hw).mono hst (Nat.le_refl _)⟩
  exhausted := fun x hx w hw => (h.exhausted x hx w hw).mono hst (Nat.le_refl _)

/-- The stack falls into the layers of the frames, and every vertex of the path
    leads to those above it. -/
def Layered (g : Digraph) (s : LowLink) : List Frame → List Nat → Prop
  | [], stack => stack = []
  | f :: fs, stack =>
      ∃ above below, stack = above ++ f.vertex :: below ∧ Layer g s f above below
        ∧ (∀ p ∈ fs, g.Reaches p.vertex f.vertex) ∧ Layered g s fs below

theorem Layered.mono (hst : s.Extends t) {fs : List Frame} {stack : List Nat}
    (h : Layered g s fs stack) : Layered g t fs stack := by
  induction fs generalizing stack with
  | nil => exact h
  | cons f fs ih =>
      obtain ⟨above, below, rfl, hl, hp, hfs⟩ := h
      exact ⟨above, below, rfl, hl.mono hst, hp, ih hfs⟩

/-- The latest vertex of the path is led to from all of the stack. -/
theorem Layered.reaches_top {f : Frame} {fs : List Frame} {stack : List Nat}
    (h : Layered g s (f :: fs) stack) : ∀ y ∈ stack, g.Reaches y f.vertex := by
  induction fs generalizing f stack with
  | nil =>
      obtain ⟨above, below, rfl, hl, -, rfl⟩ := h
      intro y hy
      rcases List.mem_append.1 hy with hy | hy
      · exact hl.back y hy
      · rw [List.mem_singleton.1 hy]
        exact .refl _
  | cons p fs ih =>
      obtain ⟨above, below, rfl, hl, hp, hfs⟩ := h
      intro y hy
      rcases List.mem_append.1 hy with hy | hy
      · exact hl.back y hy
      rcases List.mem_cons.1 hy with rfl | hy
      · exact .refl _
      · exact (ih hfs y hy).trans (hp p (List.mem_cons_self ..))

/-! ## Complete components -/

/-- Every complete component leads to itself throughout, and its edges end in
    itself or in one that was completed before. -/
def Settled (g : Digraph) : List (List Nat) → Prop
  | [] => True
  | c :: cs =>
      c ≠ [] ∧ (∀ v ∈ c, ∀ w ∈ c, g.Reaches v w)
        ∧ (∀ v ∈ c, ∀ w, g.Edge v w → w ∈ c ∨ w ∈ cs.flatten) ∧ Settled g cs

/-- The numbers of the components by vertex. -/
def placesOf : List (List Nat) → List (Nat × Nat)
  | [] => []
  | c :: cs => c.map (fun w => (w, cs.length)) ++ placesOf cs

/-- What holds of the records of the search, whatever its path. -/
structure Records (g : Digraph) (s : LowLink) : Prop where
  numbered : Numbered g s
  sublist : s.stack.Sublist s.entered
  partition : (s.stack ++ s.closed.flatten).Perm s.entered
  settled : Settled g s.closed
  places : s.places = placesOf s.closed

/-- What holds between any two steps of the search. -/
structure Invariant (g : Digraph) (s : LowLink) : Prop extends Records g s where
  layered : Layered g s s.frames s.stack

namespace Records

/-- A vertex that has been entered is on the stack or has a component. -/
theorem mem_stack_or_closed (h : Records g s) {v : Nat} (hv : v ∈ s.entered) :
    v ∈ s.stack ∨ v ∈ s.closed.flatten :=
  List.mem_append.1 (h.partition.mem_iff.2 hv)

theorem stack_nodup (h : Records g s) : s.stack.Nodup :=
  h.sublist.nodup h.numbered.nodup

theorem notMem_above (h : Records g s) {v : Nat} {above below : List Nat}
    (hs : s.stack = above ++ v :: below) : v ∉ above := by
  have hnd := h.stack_nodup
  rw [hs] at hnd
  exact fun hm => (List.nodup_append.1 hnd).2.2 _ hm _ (List.mem_cons_self ..) rfl

/-- On the stack, what lies above has the greater number. -/
theorem number_lt (h : Records g s) {above below : List Nat} {v x m n : Nat}
    (hs : s.stack = above ++ below) (hv : v ∈ below) (hx : x ∈ above)
    (hm : (v, m) ∈ s.numbers) (hn : (x, n) ∈ s.numbers) : m < n := by
  have hp := h.numbered.pairwise_entered.sublist h.sublist
  rw [hs] at hp
  exact (List.pairwise_append.1 hp).2.2 x hx v hv n m hn hm

/-- The low number of a vertex is at most its own. -/
theorem low_le (h : Records g s) {f : Frame} {up above below : List Nat} {m : Nat}
    (hs : s.stack = up ++ f.vertex :: below) (hl : Layer g s f above below)
    (hm : (f.vertex, m) ∈ s.numbers) : f.low ≤ m := by
  obtain ⟨y, hy, hn, -⟩ := hl.low
  rcases List.mem_cons.1 hy with rfl | hy
  · exact Nat.le_of_eq (eq_of_mem_of_nodup_keys h.numbered.nodup hn hm)
  · have hs' : s.stack = (up ++ [f.vertex]) ++ below := by rw [hs, List.append_assoc]; rfl
    exact Nat.le_of_lt (h.number_lt hs' hy (List.mem_append_right _ (List.mem_singleton.2 rfl)) hn hm)

/-- What lies above a vertex of the path has a greater number than the low one. -/
theorem low_lt (h : Records g s) {f : Frame} {up above below : List Nat} {x n : Nat}
    (hs : s.stack = up ++ f.vertex :: below) (hl : Layer g s f above below)
    (hx : x ∈ up) (hn : (x, n) ∈ s.numbers) : f.low < n := by
  have hentered : f.vertex ∈ s.entered :=
    h.sublist.subset (hs ▸ List.mem_append_right _ (List.mem_cons_self ..))
  obtain ⟨m, hm⟩ := exists_number hentered
  exact Nat.lt_of_le_of_lt (h.low_le hs hl hm) (h.number_lt hs (List.mem_cons_self ..) hx hm hn)

/-- The records do not depend on the path. -/
theorem withFrames (h : Records g s) (fs : List Frame) : Records g { s with frames := fs } :=
  ⟨⟨h.numbered.nodup, h.numbered.descending, h.numbered.lt_length, h.numbered.inGraph⟩,
    h.sublist, h.partition, h.settled, h.places⟩

/-- Entering a new vertex keeps the records in order. -/
theorem enter (h : Records g s) {v : Nat} (hv : v < g.size) (hn : v ∉ s.entered) :
    Records g (s.enter g v) where
  numbered := h.numbered.enter hv hn
  sublist := h.sublist.cons_cons v
  partition := h.partition.cons v
  settled := h.settled
  places := h.places

end Records

/-! ## Entering a vertex -/

theorem extends_withFrames (s : LowLink) (fs : List Frame) :
    s.Extends { s with frames := fs } :=
  ⟨fun _ h => h, fun _ h => h⟩

theorem extends_enter (s : LowLink) (v : Nat) : s.Extends (s.enter g v) :=
  ⟨fun _ h => List.mem_cons_of_mem _ h, fun _ h => h⟩

/-- A new vertex is a layer of its own. -/
theorem invariant_enter (h : Records g s) {v : Nat} (hv : v < g.size) (hn : v ∉ s.entered)
    (hl : Layered g (s.enter g v) s.frames s.stack)
    (hp : ∀ p ∈ s.frames, g.Reaches p.vertex v) : Invariant g (s.enter g v) where
  toRecords := h.enter hv hn
  layered := by
    refine ⟨[], s.stack, rfl, ?_, hp, hl⟩
    exact {
      forth := fun x hx => absurd hx List.not_mem_nil
      back := fun x hx => absurd hx List.not_mem_nil
      low := ⟨v, List.mem_cons_self .., List.mem_cons_self .., .refl v⟩
      followed := ⟨[], rfl, fun w hw => absurd hw List.not_mem_nil⟩
      exhausted := fun x hx => absurd hx List.not_mem_nil }

/-! ## Following an edge -/

/-- The layer of a vertex whose next edge has been followed to `w`, when the low
    number has become `low`. -/
theorem Layer.follow (hst : s.Extends t) {f : Frame} {above below : List Nat} {w low : Nat}
    {ws : List Nat} (hl : Layer g s f above below) (hr : f.rest = w :: ws) (hle : low ≤ f.low)
    (hlow : ∃ y ∈ f.vertex :: below, (y, low) ∈ t.numbers ∧ g.Reaches f.vertex y)
    (hw : t.Covered low w) : Layer g t ⟨f.vertex, low, ws⟩ above below where
  forth := hl.forth
  back := hl.back
  low := hlow
  followed := by
    obtain ⟨done, hd, hc⟩ := hl.followed
    refine ⟨done ++ [w], ?_, ?_⟩
    · rw [hd, hr, List.append_assoc]
      rfl
    · intro x hx
      rcases List.mem_append.1 hx with hx | hx
      · exact (hc x hx).mono hst hle
      · rw [List.mem_singleton.1 hx]
        exact hw
  exhausted := fun x hx y hy => (hl.exhausted x hx y hy).mono hst hle

theorem edge_of_rest {f : Frame} {above below : List Nat} {w : Nat} {ws : List Nat}
    (hl : Layer g s f above below) (hr : f.rest = w :: ws) : g.Edge f.vertex w := by
  obtain ⟨done, hd, -⟩ := hl.followed
  rw [Digraph.Edge, hd, hr]
  exact List.mem_append_right _ (List.mem_cons_self ..)

/-- Following an edge keeps the invariant. -/
theorem invariant_follow (hg : g.InRange) (h : Invariant g s) {f : Frame} {fs : List Frame}
    {w : Nat} {ws : List Nat} (hf : s.frames = f :: fs) (hr : f.rest = w :: ws) :
    Invariant g (s.follow g { f with rest := ws } fs w) := by
  have hlay := h.layered
  rw [hf] at hlay
  obtain ⟨above, below, hs, hl, hp, hfs⟩ := hlay
  have hedge : g.Edge f.vertex w := edge_of_rest hl hr
  simp only [follow]
  cases hn : s.number? w with
  | none =>
      -- `w` is new: the edge counts as followed because its number will be above all low ones
      have hnew : w ∉ s.entered := notMem_keys_of_lookup_eq_none hn
      rw [if_pos (hg.edge_lt hedge)]
      refine invariant_enter (h.withFrames _) (hg.edge_lt hedge) hnew ?_ ?_
      · have hst : s.Extends ((({ s with frames := ⟨f.vertex, f.low, ws⟩ :: fs } : LowLink)).enter g w) :=
          ⟨fun _ he => List.mem_cons_of_mem _ he, fun _ he => he⟩
        obtain ⟨y, hy, hylow, hyr⟩ := hl.low
        refine ⟨above, below, hs, hl.follow hst hr (Nat.le_refl _) ?_ ?_, hp, hfs.mono hst⟩
        · exact ⟨y, hy, hst.numbers _ hylow, hyr⟩
        · exact .inr ⟨s.numbers.length, List.mem_cons_self ..,
            Nat.le_of_lt (h.numbered.lt_length _ hylow)⟩
      · intro p hpm
        rcases List.mem_cons.1 hpm with rfl | hpm
        · exact .of_edge hedge
        · exact (hp p hpm).tail hedge
  | some n =>
      have hwn : (w, n) ∈ s.numbers := mem_of_lookup_eq_some hn
      by_cases hw : w ∈ s.stack
      · -- `w` is on the stack, so the low number becomes at most its number
        simp only [hw, if_true]
        refine ⟨h.withFrames _, above, below, hs, ?_, hp, hfs.mono (extends_withFrames ..)⟩
        refine hl.follow (extends_withFrames ..) hr (Nat.min_le_left ..) ?_
          (.inr ⟨n, hwn, Nat.min_le_right ..⟩)
        rcases Nat.le_total f.low n with hle | hle
        · rw [Nat.min_eq_left hle]
          exact hl.low
        · -- a lower number belongs to a vertex further down
          rw [Nat.min_eq_right hle]
          refine ⟨w, ?_, hwn, .of_edge hedge⟩
          rw [hs] at hw
          rcases List.mem_append.1 hw with hab | hbe
          · exact absurd (h.low_lt hs hl hab hwn) (Nat.not_lt.2 hle)
          · exact hbe
      · -- `w` has a component, and nothing is learned of the stack
        simp only [hw, if_false]
        refine ⟨h.withFrames _, above, below, hs, ?_, hp, hfs.mono (extends_withFrames ..)⟩
        refine hl.follow (extends_withFrames ..) hr (Nat.le_refl _) hl.low (.inl ?_)
        exact (h.mem_stack_or_closed (mem_entered hwn)).resolve_left hw

/-! ## Leaving a vertex -/

/-- The stack from the top down to a vertex becomes its component. -/
theorem close_eq {v : Nat} {above below : List Nat} (hs : s.stack = above ++ v :: below)
    (hv : v ∉ above) :
    s.close v =
      { s with
        stack := below
        closed := (v :: above.reverse) :: s.closed
        places := (v :: above.reverse).map (fun w => (w, s.closed.length)) ++ s.places } := by
  have hne : ∀ a ∈ above, decide (a ≠ v) = true := by
    intro a ha
    exact decide_eq_true fun he => hv (he ▸ ha)
  have htake : s.stack.takeWhile (· ≠ v) = above := by
    rw [hs, List.takeWhile_append_of_pos hne]
    simp
  have hdrop : s.stack.dropWhile (· ≠ v) = v :: below := by
    rw [hs, List.dropWhile_append_of_pos hne]
    simp
  simp only [close, htake, hdrop, List.drop_one, List.tail_cons]

/-- All edges of a layer have been followed once its vertex has no edge left. -/
theorem Layer.covered {f : Frame} {above below : List Nat} (hl : Layer g s f above below)
    (hr : f.rest = []) {x w : Nat} (hx : x ∈ f.vertex :: above) (hw : g.Edge x w) :
    s.Covered f.low w := by
  rcases List.mem_cons.1 hx with rfl | hx
  · obtain ⟨done, hd, hc⟩ := hl.followed
    rw [hr, List.append_nil] at hd
    rw [Digraph.Edge, hd] at hw
    exact hc w hw
  · exact hl.exhausted x hx w hw

/-- A layer whose vertex has its own number as low is a component. -/
theorem settled_close (h : Records g s) {f : Frame} {above below : List Nat}
    (hs : s.stack = above ++ f.vertex :: below) (hl : Layer g s f above below)
    (hr : f.rest = []) (hlow : (f.vertex, f.low) ∈ s.numbers) :
    Settled g ((f.vertex :: above.reverse) :: s.closed) := by
  have hforth : ∀ v ∈ f.vertex :: above.reverse, g.Reaches f.vertex v := by
    intro v hv
    rcases List.mem_cons.1 hv with rfl | hv
    · exact .refl _
    · exact hl.forth v (List.mem_reverse.1 hv)
  have hback : ∀ v ∈ f.vertex :: above.reverse, g.Reaches v f.vertex := by
    intro v hv
    rcases List.mem_cons.1 hv with rfl | hv
    · exact .refl _
    · exact hl.back v (List.mem_reverse.1 hv)
  refine ⟨List.cons_ne_nil _ _, fun v hv w hw => (hback v hv).trans (hforth w hw), ?_, h.settled⟩
  intro v hv w hw
  have hv' : v ∈ f.vertex :: above := by
    rcases List.mem_cons.1 hv with rfl | hv
    · exact List.mem_cons_self ..
    · exact List.mem_cons_of_mem _ (List.mem_reverse.1 hv)
  rcases hl.covered hr hv' hw with hc | ⟨n, hn, hle⟩
  · exact .inr hc
  rcases h.mem_stack_or_closed (mem_entered hn) with hst | hc
  · -- the number of `w` is not below that of `f.vertex`, so `w` lies in the layer
    refine .inl ?_
    rw [hs] at hst
    rcases List.mem_append.1 hst with hab | hbe
    · exact List.mem_cons_of_mem _ (List.mem_reverse.2 hab)
    rcases List.mem_cons.1 hbe with rfl | hbe
    · exact List.mem_cons_self ..
    · have hs' : s.stack = (above ++ [f.vertex]) ++ below := by
        rw [hs, List.append_assoc]
        rfl
      have := h.number_lt hs' hbe (List.mem_append_right _ (List.mem_singleton.2 rfl)) hn hlow
      omega
  · exact .inr hc

/-- Completing a component keeps the records in order. -/
theorem Records.close (h : Records g s) {f : Frame} {above below : List Nat}
    (hs : s.stack = above ++ f.vertex :: below) (hl : Layer g s f above below)
    (hr : f.rest = []) (hlow : (f.vertex, f.low) ∈ s.numbers) :
    Records g (s.close f.vertex) := by
  rw [close_eq hs (h.notMem_above hs)]
  refine ⟨⟨h.numbered.nodup, h.numbered.descending, h.numbered.lt_length, h.numbered.inGraph⟩,
    ?_, ?_, settled_close h hs hl hr hlow, ?_⟩
  · refine List.Sublist.trans ?_ h.sublist
    rw [hs]
    exact (List.sublist_cons_self f.vertex below).trans (List.sublist_append_right above _)
  · refine List.Perm.trans ?_ h.partition
    rw [hs]
    refine List.perm_iff_count.2 fun a => ?_
    simp only [List.flatten_cons, List.count_append, List.count_cons, List.count_reverse]
    omega
  · show _ = (f.vertex :: above.reverse).map _ ++ placesOf s.closed
    rw [h.places]

/-- The vertex below inherits the layer of a vertex that is left and is not the
    first of its component. -/
theorem Layer.merge (h : Records g s) {f p : Frame} {fs : List Frame}
    {above above' below' : List Nat}
    (hs : s.stack = above ++ f.vertex :: (above' ++ p.vertex :: below'))
    (hl : Layer g s f above (above' ++ p.vertex :: below')) (hr : f.rest = [])
    (hne : (f.vertex, f.low) ∉ s.numbers) (hp : g.Reaches p.vertex f.vertex)
    (hlp : Layer g s p above' below')
    (hps : Layered g s (p :: fs) (above' ++ p.vertex :: below')) :
    Layer g s (p.lower f.low) (above ++ f.vertex :: above') below' := by
  obtain ⟨y, hy, hyn, hyr⟩ := hl.low
  have hybelow : y ∈ above' ++ p.vertex :: below' := by
    rcases List.mem_cons.1 hy with rfl | hy
    · exact absurd hyn hne
    · exact hy
  -- the low number of `f` belongs to a vertex below, and all of those lead to `p`
  have hback : g.Reaches f.vertex p.vertex := hyr.trans (hps.reaches_top y hybelow)
  have hmin : (p.lower f.low).low = min p.low f.low := rfl
  exact {
    forth := by
      intro x hx
      rcases List.mem_append.1 hx with hx | hx
      · exact hp.trans (hl.forth x hx)
      rcases List.mem_cons.1 hx with rfl | hx
      · exact hp
      · exact hlp.forth x hx
    back := by
      intro x hx
      rcases List.mem_append.1 hx with hx | hx
      · exact (hl.back x hx).trans hback
      rcases List.mem_cons.1 hx with rfl | hx
      · exact hback
      · exact hlp.back x hx
    low := by
      rcases Nat.le_total p.low f.low with hle | hle
      · rw [hmin, Nat.min_eq_left hle]
        exact hlp.low
      · rw [hmin, Nat.min_eq_right hle]
        refine ⟨y, ?_, hyn, hp.trans hyr⟩
        rcases List.mem_append.1 hybelow with hya | hyb
        · have hs' : s.stack = (above ++ f.vertex :: above') ++ p.vertex :: below' := by
            rw [hs, List.append_assoc]
            rfl
          have hyup : y ∈ above ++ f.vertex :: above' :=
            List.mem_append_right _ (List.mem_cons_of_mem _ hya)
          exact absurd (h.low_lt hs' hlp hyup hyn) (Nat.not_lt.2 hle)
        · exact hyb
    followed := by
      obtain ⟨done, hd, hc⟩ := hlp.followed
      exact ⟨done, hd, fun w hw => (hc w hw).mono (.refl s) (Nat.min_le_left ..)⟩
    exhausted := by
      intro x hx w hw
      rcases List.mem_append.1 hx with hx | hx
      · exact (hl.exhausted x hx w hw).mono (.refl s) (Nat.min_le_right ..)
      rcases List.mem_cons.1 hx with rfl | hx
      · exact (hl.covered hr (List.mem_cons_self ..) hw).mono (.refl s)
          (Nat.min_le_right ..)
      · exact (hlp.exhausted x hx w hw).mono (.refl s) (Nat.min_le_left ..) }

/-- A component inherits nothing to the vertex below it. -/
theorem inherit_eq_self (h : Records g s) {f : Frame} {fs : List Frame} {above below : List Nat}
    (hs : s.stack = above ++ f.vertex :: below) (hlow : (f.vertex, f.low) ∈ s.numbers)
    (hfs : Layered g s fs below) : inherit f.low fs = fs := by
  cases fs with
  | nil => rfl
  | cons p ps =>
      obtain ⟨above', below', rfl, hlp, -, -⟩ := hfs
      obtain ⟨y, hy, hyn, -⟩ := hlp.low
      have hs' : s.stack = (above ++ [f.vertex]) ++ (above' ++ p.vertex :: below') := by
        rw [hs, List.append_assoc]
        rfl
      have hlt := h.number_lt hs' (List.mem_append_right _ hy)
        (List.mem_append_right _ (List.mem_singleton.2 rfl)) hyn hlow
      simp [inherit, Frame.lower, Nat.min_eq_left (Nat.le_of_lt hlt)]

/-- Leaving a vertex keeps the invariant. -/
theorem invariant_leave (h : Invariant g s) {f : Frame} {fs : List Frame}
    (hf : s.frames = f :: fs) (hr : f.rest = []) : Invariant g (s.leave f fs) := by
  have hlay := h.layered
  rw [hf] at hlay
  obtain ⟨above, below, hs, hl, hp, hfs⟩ := hlay
  simp only [leave]
  by_cases hlow : s.number? f.vertex = some f.low
  · -- the vertex is the first of its component, which is the layer above it
    have hmem := mem_of_lookup_eq_some hlow
    rw [if_pos (show ({ s with frames := inherit f.low fs } : LowLink).number? f.vertex
      = some f.low from hlow), inherit_eq_self h.toRecords hs hmem hfs]
    have hrec := (h.withFrames fs).close hs (hl.mono (extends_withFrames ..)) hr hmem
    refine ⟨hrec, ?_⟩
    rw [close_eq (s := { s with frames := fs }) hs (h.notMem_above hs)]
    show Layered g _ fs below
    refine Layered.mono ?_ hfs
    refine ⟨fun _ he => he, fun v hv => ?_⟩
    rw [List.flatten_cons]
    exact List.mem_append_right _ hv
  · have hne : (f.vertex, f.low) ∉ s.numbers := fun hm =>
      hlow (lookup_eq_some_of_mem h.numbered.nodup hm)
    rw [if_neg (show ¬ ({ s with frames := inherit f.low fs } : LowLink).number? f.vertex
      = some f.low from hlow)]
    refine ⟨h.withFrames _, ?_⟩
    cases fs with
    | nil =>
        -- the first vertex of the path has nothing below that it could lead to
        obtain ⟨y, hy, hyn, -⟩ := hl.low
        rw [show below = [] from hfs] at hy
        rw [List.mem_singleton.1 hy] at hyn
        exact absurd hyn hne
    | cons p ps =>
        obtain ⟨above', below', hb, hlp, hpp, hps⟩ := id hfs
        subst hb
        have hmerge := Layer.merge h.toRecords hs hl hr hne (hp p (List.mem_cons_self ..)) hlp hfs
        refine ⟨above ++ f.vertex :: above', below', ?_, hmerge.mono (extends_withFrames ..), hpp,
          hps.mono (extends_withFrames ..)⟩
        show s.stack = _
        rw [hs, List.append_assoc]
        rfl

/-! ## Runs -/

/-- One step keeps the invariant. -/
theorem invariant_step (hg : g.InRange) (h : Invariant g s) : Invariant g (s.step g) := by
  cases hf : s.frames with
  | nil => simpa only [step, hf] using h
  | cons f fs =>
      cases hr : f.rest with
      | nil => simpa only [step, hf, hr] using invariant_leave h hf hr
      | cons w ws => simpa only [step, hf, hr] using invariant_follow hg h hf hr

/-- A vertex that has been entered stays so. -/
theorem mem_entered_step {v : Nat} (hv : v ∈ s.entered) : v ∈ (s.step g).entered := by
  cases hf : s.frames with
  | nil => simpa only [step, hf] using hv
  | cons f fs =>
      cases hr : f.rest with
      | nil =>
          simp only [step, hf, hr, leave]
          split <;> exact hv
      | cons w ws =>
          simp only [step, hf, hr, follow]
          split
          · split
            · exact List.mem_cons_of_mem _ hv
            · exact hv
          · split <;> exact hv

/-- A run from a state with the invariant ends on an empty path in a state with the
    invariant, and what has been entered stays so. -/
theorem run_spec (hg : g.InRange) (s : LowLink) (h : Invariant g s) :
    Invariant g (run g s) ∧ (run g s).frames = [] ∧ ∀ v ∈ s.entered, v ∈ (run g s).entered := by
  induction s using run.induct (g := g) with
  | case1 s hs =>
      rw [run, if_pos hs]
      exact ⟨h, hs, fun v hv => hv⟩
  | case2 s hs ih =>
      rw [run, if_neg hs]
      obtain ⟨h1, h2, h3⟩ := ih (invariant_step hg h)
      exact ⟨h1, h2, fun v hv => h3 v (mem_entered_step hv)⟩

/-- What holds between the searches from two roots, when `roots` have been visited. -/
structure Visited (g : Digraph) (s : LowLink) (roots : List Nat) : Prop extends Invariant g s where
  frames : s.frames = []
  entered : ∀ v ∈ roots, v < g.size → v ∈ s.entered

/-- Visiting one more root. -/
theorem Visited.visit (hg : g.InRange) {roots : List Nat} (h : Visited g s roots) (r : Nat) :
    Visited g (s.visit g r) (roots ++ [r]) := by
  rw [LowLink.visit]
  by_cases hnew : s.number? r = none ∧ r < g.size
  · rw [if_pos hnew]
    have hinv : Invariant g (s.enter g r) := by
      refine invariant_enter h.toRecords hnew.2 (notMem_keys_of_lookup_eq_none hnew.1) ?_ ?_
      · exact h.layered.mono (extends_enter s r)
      · rw [h.frames]
        exact fun p hp => absurd hp List.not_mem_nil
    obtain ⟨h1, h2, h3⟩ := run_spec hg _ hinv
    refine ⟨h1, h2, fun v hv hlt => h3 v ?_⟩
    rcases List.mem_append.1 hv with hv | hv
    · exact List.mem_cons_of_mem _ (h.entered v hv hlt)
    · rw [List.mem_singleton.1 hv]
      exact List.mem_cons_self ..
  · rw [if_neg hnew]
    refine ⟨h.toInvariant, h.frames, fun v hv hlt => ?_⟩
    rcases List.mem_append.1 hv with hv | hv
    · exact h.entered v hv hlt
    · rw [List.mem_singleton.1 hv] at hlt ⊢
      by_contra hne
      refine hnew ⟨?_, hlt⟩
      cases hn : s.number? r with
      | none => rfl
      | some n => exact absurd (mem_entered (mem_of_lookup_eq_some hn)) hne

/-- Nothing has been visited at the beginning. -/
theorem visited_nil (g : Digraph) : Visited g {} [] where
  numbered := ⟨List.nodup_nil, List.Pairwise.nil, fun _ h => absurd h List.not_mem_nil,
    fun _ h => absurd h List.not_mem_nil⟩
  sublist := List.Sublist.refl _
  partition := List.Perm.refl _
  settled := trivial
  places := rfl
  layered := rfl
  frames := rfl
  entered := fun _ hv => absurd hv List.not_mem_nil

/-- The search from a list of roots has visited them. -/
theorem visited_lowLink (hg : g.InRange) (roots : List Nat) :
    Visited g (g.lowLink roots) roots := by
  have hgen : ∀ (rest done : List Nat) (s : LowLink), Visited g s done →
      Visited g (rest.foldl (LowLink.visit g) s) (done ++ rest) := by
    intro rest
    induction rest with
    | nil =>
        intro done s h
        rw [List.append_nil]
        exact h
    | cons r rest ih =>
        intro done s h
        have := ih (done ++ [r]) _ (h.visit hg r)
        rw [List.append_assoc] at this
        exact this
  exact hgen roots [] {} (visited_nil g)

/-- If the roots are all vertices, so are the members of the complete components,
    each vertex once. -/
theorem flatten_closed_perm (hg : g.InRange) {roots : List Nat} (hroots : ∀ v < g.size, v ∈ roots) :
    (g.lowLink roots).closed.flatten.Perm g.vertices := by
  have h := visited_lowLink hg roots
  have hstack : (g.lowLink roots).stack = [] := by
    have hl := h.layered
    rw [h.frames] at hl
    exact hl
  have hpart := h.partition
  rw [hstack, List.nil_append] at hpart
  refine hpart.trans ?_
  refine (List.perm_ext_iff_of_nodup h.numbered.nodup List.nodup_range).2 fun v => ?_
  rw [List.mem_range]
  exact ⟨h.numbered.inGraph v, fun hv => h.entered v (hroots v hv) hv⟩

end Buildwright.LowLink
