import Buildwright.Entries
import Buildwright.Graph.Search

/-!
# Search for strong components

A depth-first search numbers the vertices in the order in which it enters them, and
keeps a stack of the vertices whose component is not complete. Of every vertex on its
path it knows the *low* number: the least entry number of a vertex on the stack that
it has been seen to lead to. A vertex that is left with its own number as low is the
first of its component, and the rest of the component lies above it on the stack.

## Contents

* `Frame`, `LowLink` — the path and the records of the search;
* `LowLink.step` — follow an edge of the latest vertex, or leave it;
* `LowLink.run` — all steps from one root;
* `Digraph.lowLink` — the search from a list of roots.
-/

namespace Buildwright

/-- A vertex that has been entered and not left. -/
structure Frame where
  vertex : Nat
  /-- The least entry number on the stack that the vertex is known to lead to. -/
  low : Nat
  /-- The successors that have not been followed. -/
  rest : List Nat
deriving DecidableEq, Repr, Inhabited

namespace Frame

/-- The frame of a vertex that has been seen to lead to the entry number. -/
def lower (f : Frame) (number : Nat) : Frame :=
  { f with low := min f.low number }

end Frame

/-- The records of the search, each with the latest first. -/
structure LowLink where
  /-- The path of the search. -/
  frames : List Frame := []
  /-- The vertices that have been entered, with their entry numbers. -/
  numbers : List (Nat × Nat) := []
  /-- The vertices that have been entered and have no component yet. -/
  stack : List Nat := []
  /-- The complete components, the members of each in order of entry. -/
  closed : List (List Nat) := []
  /-- The vertices that have a component, with its number. -/
  places : List (Nat × Nat) := []
deriving DecidableEq, Repr, Inhabited

namespace LowLink

/-- The entry number of a vertex. -/
def number? (s : LowLink) (v : Nat) : Option Nat :=
  s.numbers.lookup v

def entered (s : LowLink) : List Nat :=
  s.numbers.map Prod.fst

/-- Enter a vertex for the first time. -/
def enter (g : Digraph) (v : Nat) (s : LowLink) : LowLink :=
  let number := s.numbers.length
  { s with
    frames := ⟨v, number, g.next v⟩ :: s.frames
    numbers := (v, number) :: s.numbers
    stack := v :: s.stack }

/-- Complete the component of `v`: it ends with `v` on the stack. -/
def close (v : Nat) (s : LowLink) : LowLink :=
  let members := v :: (s.stack.takeWhile (· ≠ v)).reverse
  { s with
    stack := (s.stack.dropWhile (· ≠ v)).drop 1
    closed := members :: s.closed
    places := members.map (fun w => (w, s.closed.length)) ++ s.places }

/-- Follow an edge from the latest frame `f` to `w`; `fs` are the frames below. -/
def follow (g : Digraph) (f : Frame) (fs : List Frame) (w : Nat) (s : LowLink) : LowLink :=
  match s.number? w with
  | none =>
    if w < g.size then enter g w { s with frames := f :: fs } else { s with frames := f :: fs }
  | some number =>
    -- a vertex that has left the stack has a component, and the edge counts for nothing
    if w ∈ s.stack then { s with frames := f.lower number :: fs }
    else { s with frames := f :: fs }

/-- What the frames below a vertex of the given low number learn from it. -/
def inherit (low : Nat) : List Frame → List Frame
  | [] => []
  | f :: fs => f.lower low :: fs

/-- Leave the vertex of the latest frame `f`; `fs` are the frames below. -/
def leave (f : Frame) (fs : List Frame) (s : LowLink) : LowLink :=
  let s := { s with frames := inherit f.low fs }
  -- nothing below is led to, so the stack down to here is a component
  if s.number? f.vertex = some f.low then s.close f.vertex else s

def step (g : Digraph) (s : LowLink) : LowLink :=
  match s.frames with
  | [] => s
  | f :: fs =>
    match f.rest with
    | [] => s.leave f fs
    | w :: ws => s.follow g { f with rest := ws } fs w

/-- The steps that the frames give rise to if no further vertex is entered. -/
def pending : List Frame → Nat
  | [] => 0
  | f :: fs => f.rest.length + 1 + pending fs

theorem pending_inherit (low : Nat) (fs : List Frame) : pending (inherit low fs) = pending fs := by
  cases fs with
  | nil => rfl
  | cons f fs => simp [inherit, pending, Frame.lower]

/-- A step enters a new vertex, or leaves less to do. -/
theorem step_lt (g : Digraph) (s : LowLink) (h : s.frames ≠ []) :
    Prod.Lex (· < ·) (· < ·) (g.unseen (s.step g).entered, pending (s.step g).frames)
      (g.unseen s.entered, pending s.frames) := by
  cases hf : s.frames with
  | nil => exact absurd hf h
  | cons f fs =>
    cases hr : f.rest with
    | nil =>
      have hstep : (s.step g).entered = s.entered ∧ (s.step g).frames = inherit f.low fs := by
        simp only [step, hf, hr, leave]
        split <;> exact ⟨rfl, rfl⟩
      rw [hstep.1, hstep.2]
      apply Prod.Lex.right
      rw [pending_inherit]
      simp [pending]
    | cons w ws =>
      have hless : pending ({ f with rest := ws } :: fs) < pending (f :: fs) := by
        simp [pending, hr]
      simp only [step, hf, hr, follow]
      split
      · rename_i hn
        split
        · rename_i hw
          apply Prod.Lex.left
          exact Digraph.unseen_cons_lt hw (notMem_keys_of_lookup_eq_none hn)
        · exact Prod.Lex.right _ hless
      · split
        · exact Prod.Lex.right _ hless
        · exact Prod.Lex.right _ hless

/-- Search on until the path is empty. -/
def run (g : Digraph) (s : LowLink) : LowLink :=
  if s.frames = [] then s else run g (s.step g)
termination_by (g.unseen s.entered, pending s.frames)
decreasing_by exact step_lt g s ‹_›

/-- Search from a root, unless it has been entered or is not in the graph. -/
def visit (g : Digraph) (s : LowLink) (root : Nat) : LowLink :=
  if s.number? root = none ∧ root < g.size then run g (s.enter g root) else s

end LowLink

namespace Digraph

/-- The search from the roots in their order. -/
def lowLink (g : Digraph) (roots : List Nat) : LowLink :=
  roots.foldl (LowLink.visit g) {}

end Digraph

end Buildwright
