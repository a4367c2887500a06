import Buildwright.Path.Normal
import Buildwright.Proofs.FileTree.Spelling

/-! # Paths in normal form

    The normaliser is a stack machine: it keeps the root, or steps up, and names
    above them.  Components of that form are the components of their own path,
    and stripping a path in normal form off another one leaves the text of the
    components behind it.

    * `Normal.Form`, `Path.form_normal` — the form, which the normaliser leads to;
    * `Normal.Form.components_ofComponents` — components and paths;
    * `Normal.Form.stripPrefix?` — stripping. -/

namespace Buildwright

open Buildwright.Path

/-- Whether a component stands between slashes as it is. -/
def Component.Proper : Component → Prop
  | .root => False
  | .current => False
  | .parent => True
  | .name n => IsStep n.toList ∧ n.toList ≠ ['.', '.'] ∧ '/' ∉ n.toList

/-- What stands between slashes for a component. -/
def Component.word : Component → List Char
  | .root => []
  | c => c.text.toList

namespace Component

variable {c : Component}

theorem Proper.word_eq (h : c.Proper) : c.word = c.text.toList := by
  cases c with
  | root => exact h.elim
  | current | parent | name _ => rfl

theorem Proper.isStep (h : c.Proper) : IsStep c.word ∧ '/' ∉ c.word := by
  cases c with
  | root | current => exact h.elim
  | parent => decide
  | name n => exact ⟨h.1, h.2.2⟩

theorem Proper.stepOf?_word (h : c.Proper) : stepOf? c.word = some c := by
  cases c with
  | root | current => exact h.elim
  | parent => decide
  | name n =>
      show stepOf? n.toList = _
      rw [stepOf?, if_neg (not_not.2 h.1), if_neg h.2.1, String.ofList_toList]

end Component

/-- The components of a path other than the root are proper, but for a dot in front. -/
theorem Path.proper_of_mem_components {p : Path} {c : Component} (h : c ∈ p.components)
    (hroot : c ≠ .root) (hcurrent : c ≠ .current) : c.Proper := by
  obtain ⟨piece, hpiece, rfl⟩ := List.mem_map.1 h
  rw [pieces_eq, List.mem_append] at hpiece
  have hword : ∀ s ws, (∀ w ∈ ws, '/' ∉ w) → piece ∈ wordPieces s ws → piece.component.Proper := by
    intro s ws
    induction ws generalizing s with
    | nil => exact fun _ hmem => absurd hmem List.not_mem_nil
    | cons w ws ih =>
        intro hslash hmem
        rcases List.mem_append.1 hmem with hmem | hmem
        · rw [Option.mem_toList, pieceOf?] at hmem
          split_ifs at hmem with hnil hdot _ hparent
          · obtain rfl := Option.some.inj hmem
            exact absurd rfl hcurrent
          · obtain rfl := Option.some.inj hmem
            trivial
          · obtain rfl := Option.some.inj hmem
            show IsStep (String.ofList w).toList ∧ _
            rw [String.toList_ofList]
            exact ⟨⟨hnil, hdot⟩, hparent, hslash w (List.mem_cons_self ..)⟩
        · exact ih _ (fun v hv => hslash v (List.mem_cons_of_mem _ hv)) hmem
  rcases hpiece with hpiece | hpiece
  · rw [rootPieces] at hpiece
    split_ifs at hpiece
    · rw [List.mem_singleton.1 hpiece] at hroot
      exact absurd rfl hroot
    · exact absurd hpiece List.not_mem_nil
  · exact hword 0 p.words (fun w hw => slash_notMem_of_mem_words hw) hpiece

namespace Normal

/-- Components in normal form: the root or steps up, and then names. -/
structure Form (cs : List Component) : Prop where
  exists_names : ∃ front names : List Component, cs = front ++ names ∧
    (front = [.root] ∨ ∃ n, front = List.replicate n .parent) ∧
    ∀ c ∈ names, c.isName = true ∧ c.Proper

theorem form_nil : Form [] :=
  ⟨[], [], rfl, .inr ⟨0, rfl⟩, fun _ h => absurd h List.not_mem_nil⟩

theorem form_root : Form [.root] :=
  ⟨[.root], [], rfl, .inl rfl, fun _ h => absurd h List.not_mem_nil⟩

/-- One more component keeps the form. -/
theorem form_step {s : State} {c : Component} (h : Form s.kept.reverse) (hroot : c ≠ .root)
    (hc : c = .current ∨ c.Proper) : Form (step s c).kept.reverse := by
  obtain ⟨front, names, hkept, hfront, hnames⟩ := h.exists_names
  cases c with
  | root => exact absurd rfl hroot
  | current => exact h
  | name n =>
      have hname : (step s (.name n)).kept.reverse = front ++ (names ++ [.name n]) := by
        show (Component.name n :: s.kept).reverse = _
        rw [List.reverse_cons, hkept, List.append_assoc]
      refine ⟨front, names ++ [.name n], hname, hfront, fun c hc' => ?_⟩
      rcases List.mem_append.1 hc' with hc' | hc'
      · exact hnames c hc'
      · rw [List.mem_singleton.1 hc']
        exact ⟨rfl, hc.resolve_left nofun⟩
  | parent =>
      rcases List.eq_nil_or_concat names with rfl | ⟨names, last, rfl⟩
      · -- there is no name to cancel
        rw [List.append_nil] at hkept
        rcases hfront with rfl | ⟨n, rfl⟩
        · have hroot' : s.kept = [.root] := by
            rw [← List.reverse_reverse s.kept, hkept]
            rfl
          rw [step, hroot']
          exact form_root
        · have hparents : s.kept = List.replicate n .parent := by
            rw [← List.reverse_reverse s.kept, hkept, List.reverse_replicate]
          have hstep : (step s .parent).kept = List.replicate (n + 1) .parent := by
            rw [step, hparents]
            cases n <;> rfl
          rw [hstep, List.reverse_replicate]
          exact ⟨List.replicate (n + 1) .parent, [], (List.append_nil _).symm,
            .inr ⟨n + 1, rfl⟩, fun _ hc' => absurd hc' List.not_mem_nil⟩
      · -- the last name is cancelled
        obtain ⟨hname, -⟩ := hnames last (by simp)
        cases last with
        | root | current | parent => cases hname
        | name n =>
            have hlast : s.kept = .name n :: (front ++ names).reverse := by
              rw [← List.reverse_reverse s.kept, hkept, List.concat_eq_append,
                ← List.append_assoc, List.reverse_append]
              rfl
            rw [step, hlast]
            refine ⟨front, names, List.reverse_reverse _, hfront, fun c hc' => hnames c ?_⟩
            rw [List.concat_eq_append]
            exact List.mem_append_left _ hc'

/-- More components keep the form. -/
theorem form_foldl {s : State} {cs : List Component} (h : Form s.kept.reverse)
    (hcs : ∀ c ∈ cs, c ≠ .root ∧ (c = .current ∨ c.Proper)) :
    Form (cs.foldl step s).kept.reverse := by
  induction cs generalizing s with
  | nil => exact h
  | cons c cs ih =>
      obtain ⟨⟨hroot, hc⟩, hrest⟩ := List.forall_mem_cons.1 hcs
      exact ih (form_step h hroot hc) hrest

end Normal

/-- The normal form of a path. -/
theorem Path.form_components (p : Path) : Normal.Form (Normal.components p.components) := by
  have hwords : ∀ c ∈ (wordPieces 0 p.words).map Piece.component,
      c ≠ .root ∧ (c = .current ∨ c.Proper) := by
    intro c hc
    obtain ⟨piece, hpiece, rfl⟩ := List.mem_map.1 hc
    have hroot := component_ne_root hpiece
    refine ⟨hroot, or_iff_not_imp_left.2 fun hcurrent => ?_⟩
    refine proper_of_mem_components (p := p) ?_ hroot hcurrent
    rw [components, pieces_eq, List.map_append]
    exact List.mem_append_right _ hc
  rw [Normal.components, Normal.run, components, pieces_eq, List.map_append, rootPieces]
  split_ifs
  · exact Normal.form_foldl (s := ⟨[.root], false⟩) Normal.form_root hwords
  · exact Normal.form_foldl Normal.form_nil hwords

namespace Normal

variable {cs base rest : List Component}

/-- Behind the first component there is no root. -/
theorem Form.proper (h : Form cs) : ∀ c ∈ cs, c ≠ .root → c.Proper := by
  obtain ⟨front, names, rfl, hfront, hnames⟩ := h.exists_names
  intro c hc hroot
  rcases List.mem_append.1 hc with hc | hc
  · rcases hfront with rfl | ⟨n, rfl⟩
    · exact absurd (List.mem_singleton.1 hc) hroot
    · rw [List.eq_of_mem_replicate hc]
      trivial
  · exact (hnames c hc).2

theorem Form.cases_root (h : Form cs) :
    (∀ c ∈ cs, c.Proper) ∨ ∃ names, cs = .root :: names ∧ ∀ c ∈ names, c.Proper := by
  obtain ⟨front, names, rfl, hfront, hnames⟩ := h.exists_names
  rcases hfront with rfl | ⟨n, rfl⟩
  · exact .inr ⟨names, rfl, fun c hc => (hnames c hc).2⟩
  · refine .inl fun c hc => ?_
    rcases List.mem_append.1 hc with hc | hc
    · rw [List.eq_of_mem_replicate hc]
      trivial
    · exact (hnames c hc).2

end Normal

/-! ## Components and their paths -/

namespace Path

variable {cs : List Component}

theorem ofComponents_eq_intercalate (h : ∀ c ∈ cs, c.Proper) :
    ofComponents cs = ⟨"/".intercalate (cs.map Component.text)⟩ := by
  cases cs with
  | nil => rfl
  | cons c rest =>
      cases c with
      | root => exact (h _ (List.mem_cons_self ..)).elim
      | current | parent | name _ => rfl

/-- The path of proper components is that of their words. -/
theorem ofComponents_proper (h : ∀ c ∈ cs, c.Proper) :
    ofComponents cs = ofWords (cs.map Component.word) := by
  refine ext_toList ?_
  rw [ofComponents_eq_intercalate h, ofWords, String.toList_ofList, String.toList_intercalate,
    List.map_map]
  refine congrArg _ (List.map_congr_left fun c hc => ?_)
  rw [(h c hc).word_eq]
  rfl

/-- The path of the root and names below it is that of an empty word and theirs. -/
theorem ofComponents_root (h : ∀ c ∈ cs, c.Proper) (hne : cs ≠ []) :
    ofComponents (.root :: cs) = ofWords ([] :: cs.map Component.word) := by
  have htext : (⟨"/".intercalate (cs.map Component.text)⟩ : Path) =
      ofWords (cs.map Component.word) := by
    rw [← ofComponents_eq_intercalate h, ofComponents_proper h]
  refine ext_toList ?_
  have hlist := congrArg (fun p : Path => p.text.toList) htext
  simp only [ofWords, String.toList_ofList] at hlist
  rw [ofComponents, String.toList_append, hlist, ofWords, String.toList_ofList]
  obtain ⟨c, rest, rfl⟩ := List.exists_cons_of_ne_nil hne
  rw [List.map_cons, List.intercalate_cons_cons]
  exact String.toList_ofList.symm

/-- The components of steps do not depend on where they stand. -/
theorem components_wordPieces_of_isStep {ws : List (List Char)} (h : ∀ w ∈ ws, IsStep w) (s : Nat) :
    (wordPieces s ws).map Piece.component = ws.filterMap stepOf? := by
  induction ws generalizing s with
  | nil => rfl
  | cons w ws ih =>
      obtain ⟨hw, hws⟩ := List.forall_mem_cons.1 h
      obtain ⟨c, hpiece, hstep, -⟩ := pieceOf?_of_isStep hw s
      rw [wordPieces, List.map_append, ih hws, List.filterMap_cons, hpiece, hstep]
      rfl

theorem filterMap_word (h : ∀ c ∈ cs, c.Proper) :
    (cs.map Component.word).filterMap stepOf? = cs := by
  induction cs with
  | nil => rfl
  | cons c rest ih =>
      obtain ⟨hc, hrest⟩ := List.forall_mem_cons.1 h
      rw [List.map_cons, List.filterMap_cons, hc.stepOf?_word, ih hrest]

end Path

namespace Normal.Form

variable {cs base rest : List Component}

/-- The words of a path in normal form, and the pieces of its first ones. -/
theorem words_ofComponents (h : Form cs) (hne : cs ≠ []) (hroot : cs ≠ [.root]) :
    (ofComponents cs).words = cs.map Component.word ∧
      ∀ pre post, cs = pre ++ post → pre ≠ [] →
        ((ofComponents cs).rootPieces ++ wordPieces 0 (pre.map Component.word)).map
          Piece.component = pre := by
  rcases h.cases_root with hproper | ⟨names, rfl, hproper⟩
  · have hslash : ∀ w ∈ cs.map Component.word, '/' ∉ w := by
      intro w hw
      obtain ⟨c, hc, rfl⟩ := List.mem_map.1 hw
      exact (hproper c hc).isStep.2
    have hroot' : (ofComponents cs).rootPieces = [] := by
      obtain ⟨c, rest, rfl⟩ := List.exists_cons_of_ne_nil hne
      obtain ⟨hstep, hc⟩ := (hproper c (List.mem_cons_self ..)).isStep
      have habsolute := isAbsolute_ofWords hstep.1 hc (rest.map Component.word)
      rw [isAbsolute, decide_eq_false_iff_not] at habsolute
      rw [ofComponents_proper hproper, rootPieces]
      exact if_neg habsolute
    refine ⟨?_, ?_⟩
    · rw [ofComponents_proper hproper, words_ofWords (by simpa using hne) hslash]
    · rintro pre post rfl -
      have hpre : ∀ c ∈ pre, c.Proper := fun c hc => hproper c (List.mem_append_left _ hc)
      have hsteps : ∀ w ∈ pre.map Component.word, IsStep w := by
        intro w hw
        obtain ⟨c, hc, rfl⟩ := List.mem_map.1 hw
        exact (hpre c hc).isStep.1
      rw [hroot', List.nil_append, components_wordPieces_of_isStep hsteps, filterMap_word hpre]
  · have hnames : names ≠ [] := fun hnil => hroot (by rw [hnil])
    have hslash : ∀ w ∈ [] :: names.map Component.word, '/' ∉ w := by
      intro w hw
      rcases List.mem_cons.1 hw with rfl | hw
      · exact List.not_mem_nil
      · obtain ⟨c, hc, rfl⟩ := List.mem_map.1 hw
        exact (hproper c hc).isStep.2
    have hroot' : (ofComponents (.root :: names)).rootPieces = [⟨.root, 0, 1⟩] := by
      rw [rootPieces, if_pos]
      rw [ofComponents, String.toList_append]
      rfl
    refine ⟨?_, ?_⟩
    · rw [ofComponents_root hproper hnames, words_ofWords (List.cons_ne_nil _ _) hslash]
      rfl
    · intro pre post hsplit hpre
      obtain ⟨c, pre, rfl⟩ := List.exists_cons_of_ne_nil hpre
      obtain ⟨rfl, rfl⟩ := List.cons.inj hsplit
      have hpre' : ∀ c ∈ pre, c.Proper := fun c hc => hproper c (List.mem_append_left _ hc)
      have hsteps : (wordPieces 0 ([] :: pre.map Component.word)).map Piece.component = pre := by
        show (wordPieces 1 (pre.map Component.word)).map Piece.component = pre
        rw [components_wordPieces _ Nat.one_pos, filterMap_word hpre']
      rw [hroot', List.map_append]
      exact congrArg (Component.root :: ·) hsteps

/-- Components in normal form are those of their path. -/
theorem components_ofComponents (h : Form cs) : (ofComponents cs).components = cs := by
  by_cases hne : cs = []
  · subst hne
    rfl
  by_cases hroot : cs = [.root]
  · subst hroot
    decide +kernel
  · obtain ⟨hwords, hpieces⟩ := h.words_ofComponents hne hroot
    rw [Path.components, pieces_eq, hwords]
    exact hpieces cs [] (List.append_nil _).symm hne

/-- Stripping a path in normal form leaves the path of the components behind it. -/
theorem stripPrefix?_ofComponents (h : Form (base ++ rest)) (hbase : Form base)
    (hrest : ∀ c ∈ rest, c.Proper) :
    (ofComponents (base ++ rest)).stripPrefix? (ofComponents base) =
      some (ofWords (rest.map Component.word)) := by
  by_cases hnil : rest = []
  · -- nothing is left
    subst hnil
    rw [List.append_nil, stripPrefix?, List.take_length, if_pos rfl]
    have hdrop : (ofComponents base).pieces.drop (ofComponents base).components.length = [] := by
      rw [Path.components, List.length_map, List.drop_length]
    simp only [hdrop]
    rfl
  have htidy : Tidy (rest.map Component.word) := by
    refine tidy_of_forall (by simpa using hnil) fun w hw => ?_
    obtain ⟨c, hc, rfl⟩ := List.mem_map.1 hw
    exact (hrest c hc).isStep
  have hroot : base ++ rest ≠ [.root] := by
    intro heq
    cases base with
    | nil => exact (hrest .root (by rw [← List.nil_append rest, heq]; simp)).elim
    | cons c base => simp_all
  obtain ⟨hwords, hpieces⟩ := h.words_ofComponents (by simp [hnil]) hroot
  rw [List.map_append] at hwords
  by_cases hempty : base = []
  · subst hempty
    have hproper : ∀ c ∈ [] ++ rest, c.Proper := hrest
    have hends : (ofComponents ([] ++ rest)).EndsInStep := endsInStep_of_append hwords htidy
    rw [show ofComponents [] = ⟨""⟩ from rfl, stripPrefix?_empty hends,
      ofComponents_proper hproper]
    rfl
  · refine stripPrefix?_of_append hwords htidy ?_
    rw [hpieces base rest rfl hempty, hbase.components_ofComponents]

/-- A path in normal form is left whole where there is nothing to strip. -/
theorem stripPrefix?_empty (h : Form cs) :
    (ofComponents cs).stripPrefix? ⟨""⟩ = some (ofComponents cs) := by
  rcases h.cases_root with hproper | ⟨names, rfl, hproper⟩
  · rw [← List.nil_append cs] at h
    have hall := h.stripPrefix?_ofComponents form_nil hproper
    rw [← ofComponents_proper hproper] at hall
    exact hall
  · by_cases hnames : names = []
    · subst hnames
      decide +kernel
    · obtain ⟨hwords, -⟩ := h.words_ofComponents (List.cons_ne_nil _ _) (by simp [hnames])
      have hfront : (ofComponents (.root :: names)).words =
          [[]] ++ names.map Component.word := hwords
      refine Path.stripPrefix?_empty (endsInStep_of_append hfront ?_)
      refine tidy_of_forall (by simpa using hnames) fun w hw => ?_
      obtain ⟨c, hc, rfl⟩ := List.mem_map.1 hw
      exact (hproper c hc).isStep

end Normal.Form

namespace Path

/-- The components of a path in normal form. -/
theorem components_normal (p : Path) : p.normal.components = Normal.components p.components :=
  p.form_components.components_ofComponents

theorem normal_eq_ofComponents (p : Path) : p.normal = ofComponents p.normal.components := by
  rw [components_normal, normal]

theorem form_normal (p : Path) : Normal.Form p.normal.components := by
  rw [components_normal]
  exact p.form_components

end Path

end Buildwright
