import Buildwright.Proofs.Path.Climbing

/-! # Paths walked word by word

    The normaliser takes a path one word after the other, and a relative path behind a
    directory from where it has come in the directory.

    * `Path.walk`, `Path.run_components` — the normaliser on words;
    * `Path.run_join`, `Path.components_normal_join` — a path below a directory;
    * `Path.Below` — whether a directory lies in another one. -/

namespace Buildwright.Path

variable {p q base dir : Path} {w : List Char} {ws vs : List (List Char)} {s : Normal.State}

/-- Take the steps that the words are, from left to right. -/
def walk (ws : List (List Char)) (s : Normal.State) : Normal.State :=
  (ws.filterMap stepOf?).foldl Normal.step s

theorem walk_append (ws vs : List (List Char)) (s : Normal.State) :
    walk (ws ++ vs) s = walk vs (walk ws s) := by
  rw [walk, List.filterMap_append, List.foldl_append]
  rfl

theorem walk_cons (w : List Char) (ws : List (List Char)) (s : Normal.State) :
    walk (w :: ws) s = walk ws (walk [w] s) :=
  walk_append [w] ws s

/-- What is no step leaves everything as it is. -/
theorem walk_of_not_isStep (h : ¬ IsStep w) (ws : List (List Char)) (s : Normal.State) :
    walk (w :: ws) s = walk ws s := by
  rw [walk, List.filterMap_cons, stepOf?, if_pos h]
  rfl

/-- The mark of the normaliser is never taken back. -/
theorem climbed_walk (h : s.climbed = true) (ws : List (List Char)) :
    (walk ws s).climbed = true := by
  rw [walk]
  induction ws.filterMap stepOf? generalizing s with
  | nil => exact h
  | cons c cs ih => exact ih (Normal.climbed_step h c)

/-- Words that are names are kept. -/
theorem walk_of_names (h : ∀ w ∈ ws, IsStep w ∧ w ≠ ['.', '.'] ∧ '/' ∉ w) (s : Normal.State) :
    walk ws s = ⟨named ws.reverse ++ s.kept, s.climbed⟩ := by
  have hsteps : ws.filterMap stepOf? = named ws := by
    induction ws with
    | nil => rfl
    | cons w ws ih =>
        obtain ⟨⟨hstep, hparent, -⟩, hws⟩ := List.forall_mem_cons.1 h
        rw [List.filterMap_cons, stepOf?, if_neg (not_not.2 hstep), if_neg hparent, ih hws]
        rfl
  rw [walk, hsteps, Normal.foldl_names fun _ hc => isName_of_mem_named hc, named_reverse]

/-! ## Relative and absolute paths -/

/-- The normaliser sees of a relative path the steps between its slashes. -/
theorem foldl_components (hq : q.isAbsolute = false) (s : Normal.State) :
    q.components.foldl Normal.step s = walk q.words s := by
  rw [isAbsolute, decide_eq_false_iff_not] at hq
  obtain ⟨w, ws, hwords⟩ := List.exists_cons_of_ne_nil q.words_ne_nil
  rw [components, pieces_eq, rootPieces, if_neg hq, List.nil_append, hwords, wordPieces,
    List.map_append, components_wordPieces ws (Nat.succ_pos _), walk, List.filterMap_cons]
  by_cases hw : IsStep w
  · obtain ⟨c, hpiece, hstep, -⟩ := pieceOf?_of_isStep hw 0
    rw [hpiece, hstep]
    rfl
  · -- the path begins with a slash or with a dot, which the normaliser drops
    rw [stepOf?, if_pos hw]
    rw [IsStep, not_and_or, not_not, not_not] at hw
    rcases hw with rfl | rfl
    · rfl
    · rfl

/-- The words of an absolute path are walked from the root. -/
theorem run_of_isAbsolute (hp : p.isAbsolute = true) :
    Normal.run p.components = walk p.words ⟨[.root], false⟩ := by
  rw [isAbsolute, decide_eq_true_iff] at hp
  have hroot : p.rootPieces = [⟨.root, 0, 1⟩] := if_pos hp
  obtain ⟨ws, hwords⟩ := exists_words_of_rootPieces (hroot ▸ List.cons_ne_nil _ _)
  have hnone : wordPieces 0 ([] :: ws) = wordPieces 1 ws := rfl
  rw [Normal.run, components, pieces_eq, hroot, hwords, hnone, List.map_append, List.foldl_append,
    components_wordPieces ws Nat.one_pos, walk_of_not_isStep (by decide)]
  rfl

/-- A relative path behind a directory is walked from the end of the directory. -/
theorem run_join (base : Path) (hq : q.isAbsolute = false) :
    Normal.run (base.join q).components = walk q.words (Normal.run base.components) := by
  obtain ⟨pre, hwords, hnil, hpieces⟩ := exists_words_join base hq
  by_cases hbase : base.text = ""
  · obtain rfl : base = ⟨""⟩ := ext_toList (congrArg String.toList hbase)
    rw [empty_join, Normal.run, foldl_components hq]
    rfl
  · have hcomponents : (base.join q).components =
        base.components ++ q.words.filterMap stepOf? := by
      rw [components_of_append hwords fun hpre => hbase (hnil.1 hpre), hpieces]
      rfl
    rw [hcomponents, Normal.run, List.foldl_append]
    rfl

/-- A path of names is kept as it is. -/
theorem run_ofWords (h : ∀ w ∈ ws, IsStep w ∧ w ≠ ['.', '.'] ∧ '/' ∉ w) :
    Normal.run (ofWords ws).components = ⟨named ws.reverse, false⟩ := by
  rw [components_ofWords h, Normal.run, Normal.foldl_names fun _ hc => isName_of_mem_named hc,
    named_reverse]
  exact congrArg (Normal.State.mk · false) (List.append_nil _)

/-- The normal form of a path below a directory is that of the components of both. -/
theorem components_normal_join (base : Path) (hq : q.isAbsolute = false) :
    (base.join q).normal.components = Normal.components (base.components ++ q.components) := by
  rw [components_normal, Normal.components, Normal.components, run_join base hq, Normal.run,
    Normal.run, List.foldl_append, foldl_components hq]

/-- Paths have one normal form if and only if the normaliser keeps the same of them. -/
theorem normal_eq_normal_iff : p.normal = q.normal ↔
    (Normal.run p.components).kept = (Normal.run q.components).kept := by
  constructor
  · intro h
    have hcomponents := congrArg components h
    rw [components_normal, components_normal] at hcomponents
    exact List.reverse_injective hcomponents
  · intro h
    rw [normal, normal, Normal.components, Normal.components, h]

/-! ## Directories in directories -/

/-- Whether a directory is another one or lies somewhere below it, by their normal forms. -/
def Below (dir base : Path) : Prop :=
  ∃ names, (∀ c ∈ names, c.isName = true) ∧
    dir.normal.components = base.normal.components ++ names

theorem below_of_kept
    (h : (Normal.run dir.components).kept = named ws ++ (Normal.run base.components).kept) :
    dir.Below base := by
  refine ⟨(named ws).reverse, fun c hc => isName_of_mem_named (List.mem_reverse.1 hc), ?_⟩
  rw [components_normal, components_normal, Normal.components, Normal.components, h,
    List.reverse_append]

/-- The root of the file system lies only in itself. -/
theorem Below.kept_eq_root (h : dir.Below base)
    (hdir : (Normal.run dir.components).kept = [.root]) :
    (Normal.run base.components).kept = [.root] := by
  obtain ⟨names, hnames, heq⟩ := h
  rw [components_normal, Normal.components, hdir, List.reverse_singleton, components_normal] at heq
  rcases List.append_eq_singleton_iff.1 heq.symm with ⟨-, rfl⟩ | ⟨hbase, -⟩
  · cases hnames .root (List.mem_singleton_self _)
  · exact List.reverse_eq_iff.1 hbase

/-- What lies below the project root is given by names. -/
theorem below_empty_iff : dir.Below ⟨""⟩ ↔ ∀ c ∈ dir.normal.components, c.isName = true := by
  have hempty : (⟨""⟩ : Path).normal.components = [] := by decide +kernel
  rw [Below, hempty]
  constructor
  · rintro ⟨names, hnames, heq⟩
    rw [heq]
    exact hnames
  · intro h
    exact ⟨_, h, (List.nil_append _).symm⟩

end Buildwright.Path
