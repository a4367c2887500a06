import Buildwright.Proofs.Path.Detours
import Mathlib.Logic.Relation

/-! # The lexical normaliser

    What the normaliser leaves of a path is what is left when `.` steps are dropped, steps up
    cancel the names before them and are dropped behind the root, until nothing of that is left
    to do.  So a normal form stays as it is, and a path behind a directory can as well be taken
    behind the normal form of the directory.

    * `Normal.Cancels`, `Normal.cancels_components` — cancelling, component by component;
    * `Normal.Form.components_eq` — normal forms stay as they are;
    * `Path.lexically_normal` — what the normaliser gives. -/

namespace Buildwright

namespace Normal

variable {s t : State} {cs ds : List Component} {c : Component}

/-! ## Cancelling -/

/-- One thing to do on the way to the normal form: a `.` step is dropped, a name goes with the
    step up behind it, or a step up is dropped behind the root. -/
inductive Cancels : List Component → List Component → Prop where
  | current (front back : List Component) : Cancels (front ++ .current :: back) (front ++ back)
  | name (front back : List Component) (n : String) :
      Cancels (front ++ .name n :: .parent :: back) (front ++ back)
  | root (front back : List Component) :
      Cancels (front ++ .root :: .parent :: back) (front ++ .root :: back)

/-- What comes behind does not matter. -/
theorem Cancels.append_right (h : Cancels cs ds) (c : Component) :
    Cancels (cs ++ [c]) (ds ++ [c]) := by
  cases h with
  | current front back =>
      rw [List.append_assoc, List.append_assoc]
      exact .current front (back ++ [c])
  | name front back n =>
      rw [List.append_assoc, List.append_assoc]
      exact .name front (back ++ [c]) n
  | root front back =>
      rw [List.append_assoc, List.append_assoc]
      exact .root front (back ++ [c])

/-- A component that the normaliser takes is cancelled, cancels, or is kept. -/
theorem cancels_step (s : State) (c : Component) :
    Relation.ReflTransGen Cancels (s.kept.reverse ++ [c]) (step s c).kept.reverse := by
  have hkept : ∀ kept : List Component, Relation.ReflTransGen Cancels (kept.reverse ++ [c])
      (c :: kept).reverse := fun kept => by
    rw [List.reverse_cons]
  cases c with
  | root | name _ => exact hkept s.kept
  | current =>
      have hdrop := Cancels.current s.kept.reverse []
      rw [List.append_nil] at hdrop
      exact .single hdrop
  | parent =>
      rw [step]
      cases s.kept with
      | nil => exact hkept []
      | cons top rest =>
          cases top with
          | current | parent => exact hkept (_ :: rest)
          | name n =>
              have hcancel := Cancels.name rest.reverse [] n
              rw [List.append_nil] at hcancel
              rw [List.reverse_cons, List.append_assoc]
              exact .single hcancel
          | root =>
              rw [List.reverse_cons, List.append_assoc]
              exact .single (Cancels.root rest.reverse [])

/-- The normaliser does nothing but cancel. -/
theorem cancels_components (cs : List Component) :
    Relation.ReflTransGen Cancels cs (components cs) := by
  induction cs using List.reverseRecOn with
  | nil => exact .refl
  | append_singleton cs c ih =>
      have hstep : components (cs ++ [c]) = (step (run cs) c).kept.reverse := by
        rw [components, run, List.foldl_append]
        rfl
      rw [hstep]
      exact (ih.lift (· ++ [c]) fun _ _ h => h.append_right c).trans (cancels_step (run cs) c)

/-! ## Normal forms -/

/-- What is kept does not depend on the mark, on the whole way. -/
theorem kept_foldl_congr (h : s.kept = t.kept) (cs : List Component) :
    (cs.foldl step s).kept = (cs.foldl step t).kept := by
  induction cs generalizing s t with
  | nil => exact h
  | cons c cs ih => exact ih (kept_step_congr h c)

/-- Where two ways leave the same, they do so with more components behind them. -/
theorem components_append_congr (h : components cs = components ds) (es : List Component) :
    components (cs ++ es) = components (ds ++ es) := by
  rw [components, components, run, run, List.foldl_append, List.foldl_append]
  exact congrArg List.reverse (kept_foldl_congr (List.reverse_injective h) es)

/-- A normal form stays as it is. -/
theorem Form.components_eq (h : Form cs) : components cs = cs := by
  obtain ⟨front, names, rfl, hfront, hnames⟩ := h.exists_names
  rw [components_append_names front fun c hc => (hnames c hc).1]
  rcases hfront with rfl | ⟨n, rfl⟩
  · rfl
  · have hsteps : (run (List.replicate n .parent)).kept = List.replicate n .parent := by
      have hup := kept_steps_up_parents (s := {}) (n := 0) rfl n
      rwa [Nat.zero_add] at hup
    rw [components, hsteps, List.reverse_replicate]

/-- The components of a normal form begin with the root, or with steps up, and go on along
    names. -/
theorem Form.root_or_parents (h : Form cs) : ∃ names, (∀ c ∈ names, c.isName = true) ∧
    (cs = .root :: names ∨ ∃ up, cs = List.replicate up .parent ++ names) := by
  obtain ⟨front, names, rfl, hfront, hnames⟩ := h.exists_names
  refine ⟨names, fun c hc => (hnames c hc).1, ?_⟩
  rcases hfront with rfl | ⟨up, rfl⟩
  · exact .inl rfl
  · exact .inr ⟨up, rfl⟩

end Normal

namespace Path

variable {p q : Path}

theorem root_mem_components_iff : .root ∈ p.components ↔ p.isAbsolute = true := by
  obtain ⟨rest, hroot, hp⟩ := p.exists_components_eq
  rw [hp, List.mem_append]
  cases p.isAbsolute with
  | true => exact iff_of_true (.inl (List.mem_singleton_self _)) rfl
  | false => exact iff_of_false (by simpa using hroot) Bool.false_ne_true

/-- The normal form of a path is its own normal form. -/
theorem normal_normal (p : Path) : p.normal.normal = p.normal := by
  rw [normal, p.form_normal.components_eq, ← normal_eq_ofComponents]

/-- A path can be taken behind the normal form of a directory. -/
theorem normal_join_normal (p : Path) (hq : q.isAbsolute = false) :
    (p.normal.join q).normal = (p.join q).normal := by
  have hsame : Normal.components p.normal.components = Normal.components p.components := by
    rw [p.form_normal.components_eq, components_normal]
  rw [normal_eq_ofComponents, normal_eq_ofComponents (p.join q), components_normal_join _ hq,
    components_normal_join _ hq, Normal.components_append_congr hsame]

/-- A normal form begins with the root, and then there are only names, or the path is relative
    and its steps up are all in front of its names. -/
theorem exists_names_normal (p : Path) : ∃ names, (∀ c ∈ names, c.isName = true) ∧
    (p.normal.isAbsolute = true ∧ p.normal.components = .root :: names ∨
      p.normal.isAbsolute = false ∧
        ∃ up, p.normal.components = List.replicate up .parent ++ names) := by
  obtain ⟨names, hnames, hfront⟩ := p.form_normal.root_or_parents
  refine ⟨names, hnames, ?_⟩
  rcases hfront with hroot | ⟨up, hup⟩
  · refine .inl ⟨root_mem_components_iff.1 ?_, hroot⟩
    rw [hroot]
    exact List.mem_cons_self ..
  · refine .inr ⟨Bool.eq_false_iff.2 fun habsolute => ?_, up, hup⟩
    have hmem := root_mem_components_iff.2 habsolute
    rw [hup] at hmem
    rcases List.mem_append.1 hmem with hmem | hmem
    · cases List.eq_of_mem_replicate hmem
    · cases hnames _ hmem

theorem current_notMem_normal (p : Path) : .current ∉ p.normal.components := fun hmem =>
  p.form_normal.proper _ hmem nofun

/-- **The lexical normaliser.** It does nothing but cancel, and leaves the root or steps up, and
    names behind them: no `.`, and `..` only at the beginning of a relative path.  The mark is set
    if and only if some beginning of the path steps up more often than down.  A normal form is
    its own, and a relative path can be taken behind the normal form of a directory as well as
    behind the directory. -/
theorem lexically_normal (p : Path) :
    Relation.ReflTransGen Normal.Cancels p.components p.normal.components ∧
    (.current ∉ p.normal.components ∧ ∃ names, (∀ c ∈ names, c.isName = true) ∧
      (p.normal.isAbsolute = true ∧ p.normal.components = .root :: names ∨
        p.normal.isAbsolute = false ∧
          ∃ up, p.normal.components = List.replicate up .parent ++ names)) ∧
    (p.climbs = true ↔ p.Leaves) ∧
    p.normal.normal = p.normal ∧
    ∀ q : Path, q.isAbsolute = false → (p.join q).normal = (p.normal.join q).normal := by
  refine ⟨?_, ⟨p.current_notMem_normal, p.exists_names_normal⟩, p.climbs_iff_leaves,
    p.normal_normal, fun q hq => (normal_join_normal p hq).symm⟩
  rw [components_normal]
  exact Normal.cancels_components _

/-- A path that climbs, and one behind it that takes its last name away. -/
theorem lexically_normal_climber :
    (⟨"../c/."⟩ : Path).isAbsolute = false ∧ (⟨"a/../../b"⟩ : Path).Leaves ∧
      (⟨"a/../../b"⟩ : Path).normal = ⟨"../b"⟩ ∧
      ((⟨"a/../../b"⟩ : Path).join ⟨"../c/."⟩).normal =
        ((⟨"../b"⟩ : Path).join ⟨"../c/."⟩).normal := by
  obtain ⟨-, -, hclimbs, -, hjoin⟩ := lexically_normal ⟨"a/../../b"⟩
  have hnormal : (⟨"a/../../b"⟩ : Path).normal = ⟨"../b"⟩ := by decide +kernel
  have hbehind := hjoin ⟨"../c/."⟩ (by decide)
  rw [hnormal] at hbehind
  exact ⟨by decide, hclimbs.1 (by decide +kernel), hnormal, hbehind⟩

end Path

end Buildwright
