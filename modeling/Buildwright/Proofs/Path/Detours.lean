import Buildwright.Proofs.Path.Walking

/-! # Paths that come back to where they started

    A relative path in normal form steps up and then goes along names.  From a directory, its
    steps up take away the last names of the directory, so it ends below the directory if and
    only if its first names are those that were taken away.  At the root of the file system,
    steps up have no effect, so that there may be more of them.

    * `Path.components_of_stripPrefix?` — a path is a directory and what is left behind it;
    * `Normal.kept_foldl_components` — taking a path is taking its normal form;
    * `Path.Regains`, `Path.regains_iff`, `Path.normal_eq_append_iff` — paths that end below a
      directory. -/

namespace Buildwright

namespace Normal

variable {s t : State} {cs names bottom base back : List Component} {c : Component} {n up : Nat}

/-! ## Normal forms on the way -/

/-- What is kept does not depend on the mark. -/
theorem kept_step_congr (h : s.kept = t.kept) (c : Component) :
    (step s c).kept = (step t c).kept := by
  cases c with
  | current => exact h
  | root | name _ => exact congrArg (_ :: ·) h
  | parent =>
      rw [step, step, h]
      cases t.kept with
      | nil => rfl
      | cons top rest =>
          cases top with
          | root | current | parent | name _ => rfl

/-- Only what has come is kept. -/
theorem mem_of_mem_kept (h : c ∈ (run cs).kept) : c ∈ cs := by
  induction cs using List.reverseRecOn generalizing c with
  | nil => exact absurd h List.not_mem_nil
  | append_singleton cs d ih =>
      rw [run, List.foldl_append, ← run, List.foldl_cons, List.foldl_nil] at h
      rw [List.mem_append, List.mem_singleton]
      cases d with
      | root | name _ => exact (List.mem_cons.1 h).symm.imp_left ih
      | current => exact .inl (ih h)
      | parent =>
          rw [step] at h
          split at h
          · rename_i heq
            exact .inl (ih (heq ▸ List.mem_cons_of_mem _ h))
          · exact .inl (ih h)
          · exact (List.mem_cons.1 h).symm.imp_left ih

/-- From anywhere, a way without a root leads where its normal form does. -/
theorem kept_foldl_components (hroot : .root ∉ cs) (s : State) :
    ((components cs).foldl step s).kept = (cs.foldl step s).kept := by
  induction cs using List.reverseRecOn with
  | nil => rfl
  | append_singleton cs c ih =>
      rw [List.mem_append, not_or, List.mem_singleton] at hroot
      specialize ih hroot.1
      rw [components, run, List.foldl_append, ← run, List.foldl_cons, List.foldl_nil,
        List.foldl_append, List.foldl_cons, List.foldl_nil]
      -- where one more component is put behind the normal form, it is taken after it
      have hput : ∀ d, ((d :: (run cs).kept).reverse.foldl step s).kept =
          (step (cs.foldl step s) d).kept := by
        intro d
        rw [List.reverse_cons, List.foldl_append]
        exact kept_step_congr ih d
      cases c with
      | root => exact absurd rfl hroot.2
      | current => exact ih
      | name n => exact hput (.name n)
      | parent =>
          have hpush : (step (run cs) .parent).kept = .parent :: (run cs).kept →
              ((step (run cs) .parent).kept.reverse.foldl step s).kept =
                (step (cs.foldl step s) .parent).kept := fun hkept => hkept ▸ hput .parent
          cases hkept : (run cs).kept with
          | nil => exact hpush (by rw [step, hkept])
          | cons top rest =>
              cases top with
              | root => exact absurd (mem_of_mem_kept (hkept ▸ List.mem_cons_self ..)) hroot.1
              | current | parent => exact hpush (by rw [step, hkept])
              | name n =>
                  -- the last name is cancelled on the way as it is in the normal form
                  have hlast : (cs.foldl step s).kept =
                      .name n :: (rest.reverse.foldl step s).kept := by
                    rw [← ih, components, hkept, List.reverse_cons, List.foldl_append]
                    rfl
                  rw [step, step, hkept, hlast]

/-- The root is never cancelled. -/
theorem root_mem_kept_foldl (h : .root ∈ s.kept) (cs : List Component) :
    .root ∈ (cs.foldl step s).kept := by
  induction cs generalizing s with
  | nil => exact h
  | cons c cs ih =>
      refine ih ?_
      cases c with
      | current => exact h
      | root | name _ => exact List.mem_cons_of_mem _ h
      | parent =>
          rw [step]
          split
          · rename_i heq
            rw [heq] at h
            simpa using h
          · exact h
          · exact List.mem_cons_of_mem _ h

/-! ## Steps up -/

/-- Steps up cancel as many names. -/
theorem kept_steps_up (hnames : ∀ c ∈ names, c.isName = true) (h : s.kept = names ++ bottom) :
    ((List.replicate names.length .parent).foldl step s).kept = bottom := by
  induction names generalizing s with
  | nil => exact h
  | cons c names ih =>
      obtain ⟨hc, hrest⟩ := List.forall_mem_cons.1 hnames
      cases c with
      | root | current | parent => cases hc
      | name n =>
          refine ih hrest ?_
          rw [step, h]
          rfl

/-- At the root of the file system, steps up have no effect. -/
theorem kept_steps_up_root (h : s.kept = [.root]) (up : Nat) :
    ((List.replicate up .parent).foldl step s).kept = [.root] := by
  induction up generalizing s with
  | zero => exact h
  | succ up ih =>
      refine ih ?_
      rw [step, h]

/-- Where there is nothing to cancel, steps up are kept. -/
theorem kept_steps_up_parents (h : s.kept = List.replicate n .parent) (up : Nat) :
    ((List.replicate up .parent).foldl step s).kept = List.replicate (n + up) .parent := by
  induction up generalizing s n with
  | zero => exact h
  | succ up ih =>
      rw [← Nat.add_assoc, Nat.add_right_comm]
      refine ih ?_
      rw [step, h]
      cases n with
      | zero | succ n => rfl

theorem count_parent_of_names (h : ∀ c ∈ names, c.isName = true) : names.count .parent = 0 :=
  List.count_eq_zero.2 fun hmem => Bool.false_ne_true (h _ hmem)

/-- Steps up take away the last names of a directory, as many as they are, or all of them if the
    directory begins at the root; otherwise more steps up are left than there were. -/
theorem Form.exists_taken (h : Form base) (hs : s.kept = base.reverse) (up : Nat)
    {left : List Component}
    (hleft : ((List.replicate up .parent).foldl step s).kept = left.reverse) :
    (∃ taken, base = left ++ taken ∧
      (taken.length = up ∨ taken.length ≤ up ∧ left = [.root])) ∨
    base.count .parent < left.count .parent := by
  obtain ⟨front, names, rfl, hfront, hproper⟩ := h.exists_names
  have hnames : ∀ c ∈ names, c.isName = true := fun c hc => (hproper c hc).1
  rw [List.reverse_append] at hs
  by_cases hup : up ≤ names.length
  · obtain ⟨stay, taken, rfl, rfl⟩ : ∃ stay taken, names = stay ++ taken ∧ taken.length = up :=
      ⟨_, _, (List.take_append_drop (names.length - up) names).symm, by
        rw [List.length_drop]; omega⟩
    have hback : ∀ c ∈ taken.reverse, c.isName = true :=
      fun c hc => hnames c (List.mem_append_right _ (List.mem_reverse.1 hc))
    have hsplit : s.kept = taken.reverse ++ (front ++ stay).reverse := by
      rw [hs, List.reverse_append, List.reverse_append, List.append_assoc]
    have hcancel := kept_steps_up hback hsplit
    rw [List.length_reverse, hleft, List.reverse_inj] at hcancel
    exact .inl ⟨taken, by rw [hcancel, List.append_assoc], .inl rfl⟩
  · obtain ⟨more, rfl⟩ := Nat.exists_eq_add_of_le (Nat.le_of_not_le hup)
    have hcancel : ((List.replicate names.length .parent).foldl step s).kept = front.reverse := by
      rw [← names.length_reverse]
      exact kept_steps_up (fun c hc => hnames c (List.mem_reverse.1 hc)) hs
    rw [List.replicate_add, List.foldl_append] at hleft
    rcases hfront with rfl | ⟨n, rfl⟩
    · rw [kept_steps_up_root hcancel, ← List.reverse_singleton, List.reverse_inj] at hleft
      exact .inl ⟨names, by rw [hleft], .inr ⟨Nat.le_add_right _ _, hleft.symm⟩⟩
    · rw [List.reverse_replicate] at hcancel
      rw [kept_steps_up_parents hcancel, ← List.reverse_replicate, List.reverse_inj] at hleft
      refine .inr ?_
      rw [← hleft, List.count_append, count_parent_of_names hnames, List.count_replicate_self,
        List.count_replicate_self]
      omega

/-- Where names bring back the names that steps up have taken away. -/
def Restores (base : List Component) (up : Nat) (back : List Component) : Prop :=
  back.length = up ∧ back <:+ base ∨ back.length ≤ up ∧ base = .root :: back

/-- Steps up and names that bring back what they have taken away are a detour. -/
theorem append_of_restores (hback : ∀ c ∈ back, c.isName = true) (h : Restores base up back)
    (hs : s.kept = base.reverse) :
    ((List.replicate up .parent).foldl step s).kept.reverse ++ back = base := by
  have hreverse : ∀ c ∈ back.reverse, c.isName = true :=
    fun c hc => hback c (List.mem_reverse.1 hc)
  rcases h with ⟨rfl, front, rfl⟩ | ⟨hle, rfl⟩
  · rw [List.reverse_append] at hs
    rw [← back.length_reverse, kept_steps_up hreverse hs, List.reverse_reverse]
  · obtain ⟨more, rfl⟩ := Nat.exists_eq_add_of_le hle
    rw [List.reverse_cons] at hs
    rw [List.replicate_add, List.foldl_append,
      kept_steps_up_root (back.length_reverse ▸ kept_steps_up hreverse hs)]
    rfl

/-- Steps up and names lead from a directory to names below it if and only if the first names
    bring back what the steps up have taken away. -/
theorem Form.append_iff {way : List Component} (h : Form base) (hs : s.kept = base.reverse)
    (hway : ∀ c ∈ way, c.isName = true) (hnames : ∀ c ∈ names, c.isName = true) :
    ((List.replicate up .parent).foldl step s).kept.reverse ++ way = base ++ names ↔
      ∃ back, way = back ++ names ∧ Restores base up back := by
  constructor
  · intro heq
    rcases h.exists_taken hs up (List.reverse_reverse _).symm with ⟨taken, hbase, htaken⟩ | hlt
    · refine ⟨taken, ?_, ?_⟩
      · rw [hbase, List.append_assoc] at heq
        exact List.append_cancel_left heq
      · rcases htaken with hlength | ⟨hle, hroot⟩
        · exact .inl ⟨hlength, _, hbase.symm⟩
        · exact .inr ⟨hle, by rw [hbase, hroot]; rfl⟩
    · have hcount := congrArg (List.count .parent) heq
      rw [List.count_append, List.count_append, count_parent_of_names hway,
        count_parent_of_names hnames] at hcount
      omega
  · rintro ⟨back, rfl, hrestores⟩
    rw [← List.append_assoc, append_of_restores
      (fun c hc => hway c (List.mem_append_left _ hc)) hrestores hs]

end Normal

namespace Path

variable {p base rel : Path} {names : List Component}

/-! ## Paths below a directory -/

/-- The last piece of words is that of some word. -/
theorem exists_last_word {ws : List (List Char)} {at_ : Nat} (h : wordPieces at_ ws ≠ []) :
    ∃ pre w post piece, ws = pre ++ w :: post ∧
      wordPieces at_ ws = wordPieces at_ pre ++ [piece] ∧
      pieceOf? (at_ + span pre) w = some piece := by
  have hpos : 0 < (wordPieces at_ ws).length := List.length_pos_of_ne_nil h
  have hdrop : (wordPieces at_ ws).drop ((wordPieces at_ ws).length - 1) ≠ [] := by
    rw [Ne, List.drop_eq_nil_iff]
    omega
  obtain ⟨pre, w, post, hws, htake, piece, hpiece⟩ := exists_of_drop_wordPieces hdrop
  refine ⟨pre, w, post, piece, hws, ?_, hpiece⟩
  have hall : wordPieces at_ ws = wordPieces at_ pre ++
      piece :: wordPieces (at_ + span pre + w.length + 1) post := by
    rw [hws, wordPieces_append, wordPieces, hpiece]
    rfl
  have hpost : wordPieces (at_ + span pre + w.length + 1) post = [] := by
    have hlength := congrArg List.length hall
    have htaken := congrArg List.length htake
    rw [List.length_append, List.length_cons] at hlength
    rw [List.length_take] at htaken
    exact List.eq_nil_of_length_eq_zero (by omega)
  rw [hall, hpost]

/-- The components of tidy words. -/
theorem components_of_tidy {ws : List (List Char)} (h : Tidy ws) :
    (ofWords ws).components = ws.filterMap stepOf? := by
  have habsolute := h.isAbsolute
  obtain ⟨w, rest, rfl⟩ := List.exists_cons_of_ne_nil h.ne_nil
  have hw : IsStep w := h.head
  obtain ⟨c, hpiece, hstep, -⟩ := pieceOf?_of_isStep hw 0
  rw [isAbsolute, decide_eq_false_iff_not] at habsolute
  rw [components, pieces_eq, rootPieces, if_neg habsolute, h.words, wordPieces,
    List.nil_append, List.map_append, components_wordPieces rest (Nat.succ_pos _),
    List.filterMap_cons, hpiece, hstep]
  rfl

/-- What lies behind a directory ends in the piece of a word, which is not the first word. -/
theorem exists_last_piece (hbase : base.text ≠ "")
    (hdrop : p.pieces.drop base.components.length ≠ []) :
    ∃ pre w post piece, p.words = pre ++ w :: post ∧ pre ≠ [] ∧
      pieceOf? (span pre) w = some piece ∧
      p.pieces = (p.rootPieces ++ wordPieces 0 pre) ++ [piece] := by
  have hcount : 0 < base.components.length := components_length_pos hbase
  have hroot : p.rootPieces.length ≤ base.components.length :=
    Nat.le_trans p.length_rootPieces_le hcount
  have hwords := hdrop
  rw [pieces_eq, List.drop_append, List.drop_eq_nil_of_le hroot, List.nil_append] at hwords
  have hpieces : wordPieces 0 p.words ≠ [] := fun hnil => hwords (by rw [hnil, List.drop_nil])
  obtain ⟨pre, w, post, piece, hsplit, hall, hpiece⟩ := exists_last_word hpieces
  rw [Nat.zero_add] at hpiece
  have hp : p.pieces = (p.rootPieces ++ wordPieces 0 pre) ++ [piece] := by
    rw [pieces_eq, hall, List.append_assoc]
  refine ⟨pre, w, post, piece, hsplit, ?_, hpiece, hp⟩
  -- a single dot would be the only piece
  rintro rfl
  by_cases hnil : p.rootPieces = []
  · rw [hp, hnil] at hdrop
    exact hdrop (List.drop_eq_nil_of_le hcount)
  · obtain ⟨ws, hws⟩ := exists_words_of_rootPieces hnil
    obtain rfl : [] = w := (List.cons.inj (hws.symm.trans hsplit)).1
    cases hpiece

/-- Up to the end of the piece of a word that is not the first one, a path ends in a step. -/
theorem endsInStep_slice {pre post : List (List Char)} {w : List Char} {piece : Piece}
    (hsplit : p.words = pre ++ w :: post) (hpre : pre ≠ [])
    (hpiece : pieceOf? (span pre) w = some piece) : (p.slice 0 piece.stop).EndsInStep := by
  have hspan : 0 < span pre := by
    obtain ⟨v, pre, rfl⟩ := List.exists_cons_of_ne_nil hpre
    simp only [span, List.map_cons, List.sum_cons]
    omega
  have hslash : ∀ v ∈ pre ++ [w], '/' ∉ v := fun v hv =>
    slash_notMem_of_mem_words (p := p) (by rw [hsplit]; simp at hv ⊢; tauto)
  have hends : (p.slice 0 piece.stop).words = pre ++ [w] := by
    rw [(stop_of_pieceOf? hpiece).1, slice_append_cons hsplit, words_ofWords (by simp) hslash]
  rw [EndsInStep]
  simp only [hends, List.getLast_append_singleton]
  exact isStep_of_pieceOf? hpiece hspan

/-- What lies behind a directory lies behind it in the path up to the end of its last piece too,
    which has no slashes and dots behind it. -/
theorem exists_trimmed (h : p.stripPrefix? base = some rel) (hbase : base.text ≠ "")
    (hdrop : p.pieces.drop base.components.length ≠ []) :
    ∃ q : Path, q.components = p.components ∧ q.EndsInStep ∧ q.stripPrefix? base = some rel := by
  obtain ⟨pre, w, post, piece, hsplit, hpre, hpiece, hp⟩ := exists_last_piece hbase hdrop
  have hq : (p.slice 0 piece.stop).pieces = p.pieces := (pieces_slice hp).trans hp.symm
  have hcomponents : (p.slice 0 piece.stop).components = p.components :=
    congrArg (List.map Piece.component) hq
  refine ⟨p.slice 0 piece.stop, hcomponents, endsInStep_slice hsplit hpre hpiece, ?_⟩
  have hlast : p.pieces.getLast? = some piece := by rw [hp, List.getLast?_concat]
  have htake := take_components h
  rw [stripPrefix?, if_pos htake] at h
  rw [stripPrefix?, hcomponents, if_pos htake, hq, ← h]
  cases (p.pieces.drop base.components.length).head? with
  | none => rfl
  | some first =>
      simp only [hlast]
      rw [slice, slice, slice, String.toList_ofList, List.drop_zero, List.take_take, Nat.min_self]

/-- What stripping leaves of a path are the components behind those of the directory. -/
theorem components_eq_append (h : p.stripPrefix? base = some rel) :
    p.components = base.components ++ rel.components := by
  have htake := take_components h
  by_cases hdrop : p.pieces.drop base.components.length = []
  · -- nothing is left
    rw [stripPrefix?, if_pos htake] at h
    simp only [hdrop, List.head?_nil, Option.some_inj] at h
    have hle : p.components.length ≤ base.components.length := by
      rw [components, List.length_map]
      exact List.drop_eq_nil_iff.1 hdrop
    rw [← h, ← htake, List.take_of_length_le hle]
    exact (List.append_nil _).symm
  · by_cases hbase : base.text = ""
    · -- all is left
      obtain rfl : base = ⟨""⟩ := ext_toList (congrArg String.toList hbase)
      have hne : p.pieces ≠ [] := hdrop
      have htext : p.text ≠ "" := fun htext => hne (by
        rw [show p = ⟨""⟩ from ext_toList (congrArg String.toList htext)]
        rfl)
      obtain ⟨first, hfirst, hstart⟩ := exists_head?_pieces htext
      obtain ⟨front, last, hpieces⟩ := (List.eq_nil_or_concat p.pieces).resolve_left hne
      rw [List.concat_eq_append] at hpieces
      have hlast : p.pieces.getLast? = some last := by rw [hpieces, List.getLast?_concat]
      rw [stripPrefix?, if_pos htake] at h
      simp only [show (⟨""⟩ : Path).components = [] from rfl, List.length_nil, List.drop_zero,
        hfirst, hlast, hstart, Option.some_inj] at h
      have hslice : (p.slice 0 last.stop).pieces = p.pieces :=
        (pieces_slice hpieces).trans hpieces.symm
      rw [← h]
      exact (congrArg (List.map Piece.component) hslice).symm
    · obtain ⟨q, hq, hends, hstrip⟩ := exists_trimmed h hbase hdrop
      have hdrop' : q.pieces.drop base.components.length ≠ [] := by
        intro hnil
        refine hdrop (List.drop_eq_nil_of_le ?_)
        have hlength := congrArg List.length hq
        rw [components, components, List.length_map, List.length_map] at hlength
        rw [← hlength]
        exact List.drop_eq_nil_iff.1 hnil
      obtain ⟨pre, ws, hwords, hpre, htidy, rfl, hfront⟩ :=
        exists_of_drop_ne_nil hstrip hbase hdrop' hends
      rw [← hq, components_of_append hwords hpre, hfront, components_of_tidy htidy]

/-- Whether a path leads from a directory back to it and from there along names. -/
def Regains (rel base : Path) (names : List Component) : Prop :=
  ∃ up back, rel.normal.components = List.replicate up .parent ++ (back ++ names) ∧
    (∀ c ∈ back, c.isName = true) ∧ Normal.Restores base.normal.components up back

theorem root_notMem_of_regains (hnames : ∀ c ∈ names, c.isName = true)
    (h : rel.Regains base names) : .root ∉ rel.normal.components := by
  obtain ⟨up, back, heq, hback, -⟩ := h
  rw [heq]
  intro hmem
  rcases List.mem_append.1 hmem with hmem | hmem
  · cases List.eq_of_mem_replicate hmem
  · rcases List.mem_append.1 hmem with hmem | hmem
    · cases hback _ hmem
    · cases hnames _ hmem

/-- An absolute path keeps its root. -/
theorem root_mem_normal (h : p.isAbsolute = true) : .root ∈ p.normal.components := by
  rw [components_normal, Normal.components, List.mem_reverse, run_of_isAbsolute h]
  exact Normal.root_mem_kept_foldl (List.mem_singleton_self _) _

/-- There is a root only at the beginning. -/
theorem base_eq_nil (h : p.components = base.components ++ rel.components)
    (hrel : rel.isAbsolute = true) : base.components = [] := by
  obtain ⟨rest, hroot, hp⟩ := p.exists_components_eq
  obtain ⟨rest', -, hrel'⟩ := rel.exists_components_eq
  rw [hrel, if_pos rfl] at hrel'
  by_contra hne
  obtain ⟨c, cs, hbase⟩ := List.exists_cons_of_ne_nil hne
  rw [h, hbase, hrel'] at hp
  refine hroot ?_
  split_ifs at hp with habsolute
  · have htail : cs ++ ([.root] ++ rest') = rest := (List.cons.inj hp).2
    rw [← htail]
    simp
  · rw [← List.nil_append rest, ← hp]
    simp

/-- The parents and names of a relative path in normal form. -/
theorem exists_parents_names (h : rel.isAbsolute = false) : ∃ up way,
    rel.normal.components = List.replicate up .parent ++ way ∧ ∀ c ∈ way, c.isName = true := by
  obtain ⟨front, names, heq, hfront, hnames⟩ := rel.form_normal.exists_names
  rcases hfront with rfl | ⟨up, rfl⟩
  · obtain ⟨rest, hroot, hrel⟩ := rel.exists_components_eq
    rw [h, if_neg Bool.false_ne_true, List.nil_append] at hrel
    have hmem : .root ∈ rel.normal.components := by rw [heq]; simp
    rw [components_normal, Normal.components, List.mem_reverse] at hmem
    exact absurd (hrel ▸ Normal.mem_of_mem_kept hmem) hroot
  · exact ⟨up, names, heq, fun c hc => (hnames c hc).1⟩

/-- How often a way steps up can be read off it. -/
theorem replicate_parent_append_inj {up up' : Nat} {way way' : List Component}
    (hway : ∀ c ∈ way, c.isName = true) (hway' : ∀ c ∈ way', c.isName = true)
    (h : List.replicate up .parent ++ way = List.replicate up' .parent ++ way') :
    up = up' ∧ way = way' := by
  have hcount := congrArg (List.count .parent) h
  rw [List.count_append, List.count_append, Normal.count_parent_of_names hway,
    Normal.count_parent_of_names hway', List.count_replicate_self,
    List.count_replicate_self] at hcount
  obtain rfl : up = up' := hcount
  exact ⟨rfl, List.append_cancel_left h⟩

/-- Where the way that a relative path is leads from a directory. -/
theorem components_of_way {up : Nat} {way : List Component} (hrel : rel.isAbsolute = false)
    (hway : rel.normal.components = List.replicate up .parent ++ way)
    (hnames : ∀ c ∈ way, c.isName = true) :
    Normal.components (base.components ++ rel.components) =
      ((List.replicate up .parent).foldl Normal.step
        (Normal.run base.components)).kept.reverse ++ way := by
  have hroot : .root ∉ rel.components := by
    obtain ⟨rest, hroot, heq⟩ := rel.exists_components_eq
    rwa [heq, hrel, if_neg Bool.false_ne_true, List.nil_append]
  rw [Normal.components, Normal.run, List.foldl_append, ← Normal.kept_foldl_components hroot,
    ← components_normal, hway, List.foldl_append, Normal.foldl_names hnames, List.reverse_append,
    List.reverse_reverse]
  rfl

/-- A relative path leads from a directory to given names below it if and only if it regains the
    directory. -/
theorem regains_iff (hrel : rel.isAbsolute = false) (hnames : ∀ c ∈ names, c.isName = true) :
    Normal.components (base.components ++ rel.components) = base.normal.components ++ names ↔
      rel.Regains base names := by
  obtain ⟨up, way, hway, hwaynames⟩ := exists_parents_names hrel
  have hkept : (Normal.run base.components).kept = base.normal.components.reverse := by
    rw [components_normal, Normal.components, List.reverse_reverse]
  rw [components_of_way hrel hway hwaynames, base.form_normal.append_iff hkept hwaynames hnames]
  constructor
  · rintro ⟨back, rfl, hrestores⟩
    exact ⟨up, back, hway, fun c hc => hwaynames c (List.mem_append_left _ hc), hrestores⟩
  · rintro ⟨up', back, heq, hback, hrestores⟩
    have hall := List.forall_mem_append.2 ⟨hback, hnames⟩
    obtain ⟨rfl, rfl⟩ := replicate_parent_append_inj hwaynames hall (hway.symm.trans heq)
    exact ⟨back, rfl, hrestores⟩

/-- A path lies at given names below a directory if and only if what stripping leaves of it
    regains the directory. -/
theorem normal_eq_append_iff (h : p.stripPrefix? base = some rel)
    (hnames : ∀ c ∈ names, c.isName = true) :
    p.normal.components = base.normal.components ++ names ↔ rel.Regains base names := by
  have hp := components_eq_append h
  cases hrel : rel.isAbsolute with
  | true =>
      have hbase := base_eq_nil hp hrel
      have hnormal : p.normal.components = rel.normal.components := by
        rw [components_normal, components_normal, hp, hbase, List.nil_append]
      rw [components_normal base, hbase, hnormal]
      refine ⟨fun heq => ?_, fun hregains => ?_⟩
      · have hroot := root_mem_normal hrel
        rw [heq] at hroot
        cases hnames _ hroot
      · exact absurd (root_mem_normal hrel) (root_notMem_of_regains hnames hregains)
  | false =>
      rw [components_normal p, hp]
      exact regains_iff hrel hnames

end Path

end Buildwright
