import Buildwright.Proofs.Path.Normal
import Mathlib.Data.List.Induction

/-! # Paths that climb

    A path climbs if it steps up more often than it has stepped down, at some
    place on the way.  The normaliser notes this on its stack: as long as it has
    not climbed, it keeps the names that have not been cancelled, and one name
    less for every step up.

    * `Path.Leaves`, `Path.climbs_iff_leaves` — what the mark of the normaliser says;
    * `Path.isName_of_not_climbs`, `Path.parent_mem_of_climbs` — what is left of a relative path;
    * `Path.named`, `Path.normal_of_names` — a path of names is in normal form. -/

namespace Buildwright

open Buildwright.Path

/-- Whether a path steps up more often than down somewhere on its way, and so leaves the
    directory that it starts from. -/
def Path.Leaves (p : Path) : Prop :=
  ∃ front, front <+: p.components ∧ front.countP Component.isName < front.count .parent

namespace Normal

variable {s : State} {cs names bottom : List Component} {c : Component}

/-- What the normaliser knows when it has taken the components from a stack that it cannot
    cancel anything of: before it has climbed, it keeps the names that are left, and no
    step up was one too many; and once it has climbed, one was. -/
structure Balanced (bottom cs : List Component) (s : State) : Prop where
  level : s.climbed = false → ∃ names, s.kept = names ++ bottom ∧
    (∀ c ∈ names, c.isName = true) ∧
    names.length + cs.count .parent = cs.countP Component.isName
  below : s.climbed = false →
    ∀ front, front <+: cs → front.count .parent ≤ front.countP Component.isName
  above : s.climbed = true →
    ∃ front, front <+: cs ∧ front.countP Component.isName < front.count .parent

/-- The mark is never taken back. -/
theorem climbed_step (h : s.climbed = true) (c : Component) : (step s c).climbed = true := by
  cases c with
  | root | current | name _ => exact h
  | parent =>
      rw [step]
      split
      · exact h
      · rfl
      · rfl

/-- A place on the way is one on the way further on. -/
theorem Balanced.climbed (h : Balanced bottom cs s) (hs : s.climbed = true) (c : Component) :
    Balanced bottom (cs ++ [c]) (step s c) where
  level hnot := absurd (climbed_step hs c) (by simp [hnot])
  below hnot := absurd (climbed_step hs c) (by simp [hnot])
  above _ := by
    obtain ⟨front, hfront, hlt⟩ := h.above hs
    exact ⟨front, hfront.trans (List.prefix_append _ _), hlt⟩

/-- Before the path has climbed, the whole way is level when its last step is. -/
theorem Balanced.concat (h : Balanced bottom cs s) (hs : s.climbed = false)
    {s' : State} (hs' : s'.climbed = false)
    (hkept : ∃ names, s'.kept = names ++ bottom ∧ (∀ c ∈ names, c.isName = true) ∧
      names.length + (cs ++ [c]).count .parent = (cs ++ [c]).countP Component.isName) :
    Balanced bottom (cs ++ [c]) s' where
  level _ := hkept
  below _ := by
    obtain ⟨names, -, -, hcount⟩ := hkept
    intro front hfront
    rcases List.prefix_concat_iff.1 hfront with rfl | hfront
    · omega
    · exact h.below hs front hfront
  above hclimbed := by
    rw [hs'] at hclimbed
    cases hclimbed

/-- One more component keeps the balance. -/
theorem Balanced.step (hbottom : bottom = [] ∨ bottom = [.root]) (h : Balanced bottom cs s)
    (hroot : c ≠ .root) : Balanced bottom (cs ++ [c]) (step s c) := by
  cases hs : s.climbed with
  | true => exact h.climbed hs c
  | false =>
      obtain ⟨names, hkept, hnames, hcount⟩ := h.level hs
      cases c with
      | root => exact absurd rfl hroot
      | current =>
          refine h.concat hs hs ⟨names, hkept, hnames, ?_⟩
          rw [List.count_append, List.countP_append]
          exact hcount
      | name n =>
          refine h.concat hs hs ⟨.name n :: names, ?_, ?_, ?_⟩
          · exact congrArg (Component.name n :: ·) hkept
          · exact List.forall_mem_cons.2 ⟨rfl, hnames⟩
          · have hname : [Component.name n].countP Component.isName = 1 := rfl
            have hparent : [Component.name n].count .parent = 0 := rfl
            rw [List.count_append, List.countP_append, hname, hparent, List.length_cons]
            omega
      | parent =>
          have hname : [Component.parent].countP Component.isName = 0 := rfl
          have hparent : [Component.parent].count .parent = 1 := rfl
          cases names with
          | nil =>
              -- all names are cancelled, so this step up is one too many
              have hclimbed : (Normal.step s .parent).climbed = true := by
                rcases hbottom with rfl | rfl
                · rw [Normal.step, hkept]
                  rfl
                · rw [Normal.step, hkept]
                  rfl
              refine ⟨fun hnot => absurd hclimbed (by simp [hnot]),
                fun hnot => absurd hclimbed (by simp [hnot]), fun _ => ⟨_, List.prefix_refl _, ?_⟩⟩
              rw [List.count_append, List.countP_append, hname, hparent]
              rw [List.length_nil] at hcount
              omega
          | cons last names =>
              obtain ⟨hlast, hrest⟩ := List.forall_mem_cons.1 hnames
              cases last with
              | root | current | parent => cases hlast
              | name n =>
                  have hstep : Normal.step s .parent = { s with kept := names ++ bottom } := by
                    rw [Normal.step, hkept]
                    rfl
                  rw [hstep]
                  refine h.concat hs hs ⟨names, rfl, hrest, ?_⟩
                  rw [List.count_append, List.countP_append, hname, hparent]
                  rw [List.length_cons] at hcount
                  omega

/-- A way without a root is balanced. -/
theorem balanced_foldl (hbottom : bottom = [] ∨ bottom = [.root]) (hroot : .root ∉ cs) :
    Balanced bottom cs (cs.foldl Normal.step ⟨bottom, false⟩) := by
  induction cs using List.reverseRecOn with
  | nil =>
      refine ⟨fun _ => ⟨[], rfl, nofun, rfl⟩, fun _ front hfront => ?_, nofun⟩
      rw [List.prefix_nil.1 hfront]
      exact le_refl _
  | append_singleton cs c ih =>
      rw [List.mem_append, not_or, List.mem_singleton] at hroot
      rw [List.foldl_append]
      exact (ih hroot.1).step hbottom (Ne.symm hroot.2)

/-- Without a root to stop at, what has climbed keeps a step up. -/
theorem parent_mem_of_climbed (hroot : .root ∉ cs) (h : (run cs).climbed = true) :
    .parent ∈ (run cs).kept := by
  suffices hsteps : .root ∉ (run cs).kept ∧
      ((run cs).climbed = true → .parent ∈ (run cs).kept) from hsteps.2 h
  clear h
  induction cs using List.reverseRecOn with
  | nil => exact ⟨List.not_mem_nil, fun h => absurd h Bool.false_ne_true⟩
  | append_singleton cs c ih =>
      rw [List.mem_append, not_or, List.mem_singleton] at hroot
      obtain ⟨hkept, hclimbed⟩ := ih hroot.1
      rw [run, List.foldl_append, ← run, List.foldl_cons, List.foldl_nil]
      cases c with
      | root => exact absurd rfl hroot.2
      | current => exact ⟨hkept, hclimbed⟩
      | name n =>
          exact ⟨by simpa [step] using hkept, fun h => List.mem_cons_of_mem _ (hclimbed h)⟩
      | parent =>
          cases hs : (run cs).kept with
          | nil => simp [step, hs]
          | cons top rest =>
              rw [hs] at hkept hclimbed
              cases top with
              | root => exact absurd (List.mem_cons_self ..) hkept
              | current | parent => simpa [step, hs] using hkept
              | name n =>
                  rw [step, hs]
                  refine ⟨fun hmem => hkept (List.mem_cons_of_mem _ hmem), ?_⟩
                  intro h
                  rcases List.mem_cons.1 (hclimbed h) with hname | hrest
                  · cases hname
                  · exact hrest

/-- Names are kept on top of what is there. -/
theorem foldl_names (h : ∀ c ∈ cs, c.isName = true) (s : State) :
    cs.foldl Normal.step s = { s with kept := cs.reverse ++ s.kept } := by
  induction cs generalizing s with
  | nil => rfl
  | cons c cs ih =>
      obtain ⟨hc, hcs⟩ := List.forall_mem_cons.1 h
      cases c with
      | root | current | parent => cases hc
      | name n =>
          rw [List.foldl_cons, ih hcs, List.reverse_cons, List.append_assoc]
          rfl

/-- Names stay behind what is left of the components in front of them. -/
theorem components_append_names (cs : List Component) (h : ∀ c ∈ names, c.isName = true) :
    components (cs ++ names) = components cs ++ names := by
  rw [components, run, List.foldl_append, foldl_names h, List.reverse_append, List.reverse_reverse]
  rfl

/-- Names are kept one after the other. -/
theorem components_of_names (h : ∀ c ∈ cs, c.isName = true) : components cs = cs :=
  components_append_names [] h

end Normal

namespace Path

variable {p : Path}

/-- Behind the root of an absolute path, there is none. -/
theorem exists_components_eq (p : Path) : ∃ rest, Component.root ∉ rest ∧
    p.components = (if p.isAbsolute then [.root] else []) ++ rest := by
  refine ⟨(wordPieces 0 p.words).map Piece.component, fun hroot => ?_, ?_⟩
  · obtain ⟨piece, hpiece, heq⟩ := List.mem_map.1 hroot
    exact component_ne_root hpiece heq
  · rw [components, pieces_eq, List.map_append, rootPieces, isAbsolute]
    by_cases hslash : p.text.toList.head? = some '/'
    · rw [if_pos hslash, if_pos (decide_eq_true hslash)]
      rfl
    · rw [if_neg hslash, if_neg (by simpa using hslash)]
      rfl

/-- The components of a path are balanced, above the root if there is one. -/
theorem exists_balanced (p : Path) : ∃ rest, Component.root ∉ rest ∧
    p.components = (if p.isAbsolute then [.root] else []) ++ rest ∧
    Normal.Balanced (if p.isAbsolute then [.root] else []) rest (Normal.run p.components) := by
  obtain ⟨rest, hroot, hp⟩ := p.exists_components_eq
  refine ⟨rest, hroot, hp, ?_⟩
  rw [hp, Normal.run, List.foldl_append]
  cases p.isAbsolute with
  | true => exact Normal.balanced_foldl (.inr rfl) hroot
  | false => exact Normal.balanced_foldl (.inl rfl) hroot

/-- A root in front does not count. -/
theorem leaves_iff {rest : List Component}
    (hp : p.components = (if p.isAbsolute then [.root] else []) ++ rest) :
    p.Leaves ↔ ∃ front, front <+: rest ∧ front.countP Component.isName < front.count .parent := by
  rw [Leaves, hp]
  cases p.isAbsolute with
  | false => exact Iff.rfl
  | true =>
      constructor
      · rintro ⟨front, hfront, hlt⟩
        rcases List.prefix_cons_iff.1 hfront with rfl | ⟨front', rfl, hfront'⟩
        · cases hlt
        · refine ⟨front', hfront', ?_⟩
          rwa [List.countP_cons_of_neg (by decide), List.count_cons_of_ne (by decide)] at hlt
      · rintro ⟨front, hfront, hlt⟩
        refine ⟨.root :: front, List.prefix_cons_iff.2 (.inr ⟨front, rfl, hfront⟩), ?_⟩
        rwa [List.countP_cons_of_neg (by decide), List.count_cons_of_ne (by decide)]

/-- The mark says whether the path leaves the directory that it starts from. -/
theorem climbs_iff_leaves (p : Path) : p.climbs = true ↔ p.Leaves := by
  obtain ⟨rest, -, hp, hbalanced⟩ := p.exists_balanced
  rw [leaves_iff hp]
  refine ⟨hbalanced.above, ?_⟩
  rintro ⟨front, hfront, hlt⟩
  by_contra hnot
  have hle := hbalanced.below (Bool.eq_false_iff.2 hnot) front hfront
  omega

/-- What is left of a relative path that climbs is not all names. -/
theorem parent_mem_of_climbs (habsolute : p.isAbsolute = false) (h : p.climbs = true) :
    .parent ∈ p.normal.components := by
  obtain ⟨rest, hroot, hp⟩ := p.exists_components_eq
  rw [habsolute, if_neg (by decide), List.nil_append] at hp
  rw [components_normal, Normal.components, List.mem_reverse]
  rw [climbs] at h
  rw [hp] at h ⊢
  exact Normal.parent_mem_of_climbed hroot h

/-- A path of names is relative. -/
theorem isAbsolute_of_names (h : ∀ c ∈ p.components, c.isName = true) : p.isAbsolute = false := by
  obtain ⟨rest, -, hp⟩ := p.exists_components_eq
  by_contra habsolute
  rw [Bool.not_eq_false] at habsolute
  rw [habsolute, if_pos rfl] at hp
  cases h .root (hp ▸ List.mem_cons_self ..)

/-! ## Paths of names -/

/-- The components that words are where they are names. -/
def named (ws : List (List Char)) : List Component :=
  ws.map fun w => .name (String.ofList w)

theorem named_append (ws vs : List (List Char)) : named (ws ++ vs) = named ws ++ named vs :=
  List.map_append

theorem named_reverse (ws : List (List Char)) : named ws.reverse = (named ws).reverse :=
  List.map_reverse

theorem isName_of_mem_named {ws : List (List Char)} {c : Component} (h : c ∈ named ws) :
    c.isName = true := by
  obtain ⟨w, -, rfl⟩ := List.mem_map.1 h
  rfl

theorem named_injective : Function.Injective named := by
  refine List.map_injective_iff.2 fun w v h => ?_
  rw [← String.toList_ofList (l := w), Component.name.inj h, String.toList_ofList]

variable {ws : List (List Char)} (h : ∀ w ∈ ws, IsStep w ∧ w ≠ ['.', '.'] ∧ '/' ∉ w)

include h

theorem proper_of_mem_named : ∀ c ∈ named ws, c.Proper := by
  intro c hc
  obtain ⟨w, hw, rfl⟩ := List.mem_map.1 hc
  show IsStep (String.ofList w).toList ∧ _
  rw [String.toList_ofList]
  exact h w hw

theorem ofComponents_named : ofComponents (named ws) = ofWords ws := by
  rw [ofComponents_proper (proper_of_mem_named h), named, List.map_map]
  refine congrArg ofWords ((List.map_congr_left fun w _ => ?_).trans (List.map_id ws))
  exact String.toList_ofList

/-- The components of a path of names. -/
theorem components_ofWords : (ofWords ws).components = named ws := by
  have hform : Normal.Form (named ws) :=
    ⟨[], _, rfl, .inr ⟨0, rfl⟩, fun c hc => ⟨isName_of_mem_named hc, proper_of_mem_named h c hc⟩⟩
  rw [← ofComponents_named h, hform.components_ofComponents]

/-- A path of names is in normal form. -/
theorem normal_of_names : (ofWords ws).normal = ofWords ws ∧
    ∀ c ∈ (ofWords ws).components, c.isName = true := by
  have hnames : ∀ c ∈ named ws, c.isName = true := fun _ hc => isName_of_mem_named hc
  rw [normal, components_ofWords h, Normal.components_of_names hnames, ofComponents_named h]
  exact ⟨rfl, hnames⟩

end Path

end Buildwright
