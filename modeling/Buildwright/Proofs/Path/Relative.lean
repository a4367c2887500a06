import Buildwright.Proofs.Path.Words

/-! # Paths below a directory

    What `stripPrefix?` leaves of a path is the text of its last words.  Joined
    to the directory it is a path with the components of the first one, perhaps
    in another spelling, and stripping that one leaves the same text again.

    * `Path.stripPrefix?_of_append`, `Path.exists_of_stripPrefix?` — what is left;
    * `Path.stripPrefix?_join` — stripping what was joined;
    * `Path.components_parent?`, `Path.parent?_ofWords` — the directory of a path. -/

namespace Buildwright.Path

variable {p q r base rel : Path} {ws pre rest : List (List Char)} {w : List Char}

/-- Whether the last word of a path counts: the path does not end with a slash or a dot. -/
def EndsInStep (p : Path) : Prop :=
  IsStep (p.words.getLast p.words_ne_nil)

/-- Words that neither begin nor end with one that does not count. -/
structure Tidy (ws : List (List Char)) : Prop where
  ne_nil : ws ≠ []
  head : IsStep (ws.head ne_nil)
  last : IsStep (ws.getLast ne_nil)
  slash : ∀ w ∈ ws, '/' ∉ w

theorem Tidy.words (h : Tidy ws) : (ofWords ws).words = ws :=
  words_ofWords h.ne_nil h.slash

/-- A path that ends in a step is not empty. -/
theorem EndsInStep.text_ne (h : p.EndsInStep) : p.text ≠ "" := by
  intro htext
  obtain rfl : p = ⟨""⟩ := by
    cases p
    exact congrArg Path.mk htext
  exact h.1 rfl

theorem endsInStep_of_append (h : p.words = pre ++ ws) (hws : Tidy ws) : p.EndsInStep := by
  have hlast : p.words.getLast p.words_ne_nil = ws.getLast hws.ne_nil := by
    simp only [h]
    exact List.getLast_append_of_ne_nil _ hws.ne_nil
  rw [EndsInStep, hlast]
  exact hws.last

/-- A path that begins with a letter other than a slash is relative. -/
theorem isAbsolute_ofWords (hw : w ≠ []) (hslash : '/' ∉ w) (ws : List (List Char)) :
    (ofWords (w :: ws)).isAbsolute = false := by
  obtain ⟨c, cs, rfl⟩ := List.exists_cons_of_ne_nil hw
  have hc : c ≠ '/' := by
    rintro rfl
    exact hslash (List.mem_cons_self ..)
  have hhead : (ofWords ((c :: cs) :: ws)).text.toList.head? = some c := by
    rw [ofWords, String.toList_ofList, List.intercalate_cons_cons_left]
    rfl
  rw [isAbsolute, hhead]
  simpa using hc

/-- Tidy words do not begin with a slash. -/
theorem Tidy.isAbsolute (h : Tidy ws) : (ofWords ws).isAbsolute = false := by
  obtain ⟨w, rest, rfl⟩ := List.exists_cons_of_ne_nil h.ne_nil
  exact isAbsolute_ofWords h.head.1 (h.slash w (List.mem_cons_self ..)) rest

/-! ## Stripping -/

/-- The components of a path that begins with given words. -/
theorem components_of_append (h : p.words = pre ++ rest) (hpre : pre ≠ []) :
    p.components = (p.rootPieces ++ wordPieces 0 pre).map Piece.component ++
      rest.filterMap stepOf? := by
  have hspan : 0 < span pre := by
    obtain ⟨w, pre, rfl⟩ := List.exists_cons_of_ne_nil hpre
    simp only [span, List.map_cons, List.sum_cons]
    omega
  rw [components, pieces_of_append h, List.map_append, components_wordPieces rest hspan]

/-- Stripping the components of the first words leaves the other ones. -/
theorem stripPrefix?_of_append (h : p.words = pre ++ ws) (hws : Tidy ws)
    (hbase : (p.rootPieces ++ wordPieces 0 pre).map Piece.component = base.components) :
    p.stripPrefix? base = some (ofWords ws) := by
  obtain ⟨w, rest, rfl⟩ := List.exists_cons_of_ne_nil hws.ne_nil
  have hcount : base.components.length = (p.rootPieces ++ wordPieces 0 pre).length := by
    rw [← hbase, List.length_map]
  have hcomponents : p.components = base.components ++
      (wordPieces (span pre) (w :: rest)).map Piece.component := by
    rw [components, pieces_of_append h, List.map_append, hbase]
  obtain ⟨first, hfirst, hstart⟩ : ∃ piece, (wordPieces (span pre) (w :: rest)).head? =
      some piece ∧ piece.start = span pre := head?_wordPieces hws.head (span pre) rest
  have hwords : p.words = pre ++ (w :: rest).dropLast ++
      [(w :: rest).getLast (List.cons_ne_nil _ _)] := by
    rw [h, List.append_assoc, List.dropLast_append_getLast]
  obtain ⟨last, hlast, hstop⟩ := getLast?_pieces hwords hws.last
  have hdrop : p.pieces.drop base.components.length = wordPieces (span pre) (w :: rest) := by
    rw [pieces_of_append h, hcount, List.drop_left]
  rw [stripPrefix?, if_pos (by rw [hcomponents, List.take_left])]
  simp only [hdrop, hfirst, hlast]
  rw [hstart, hstop, slice_of_append h (List.cons_ne_nil _ _)]

/-- A path that begins with a slash begins with an empty word. -/
theorem exists_words_of_rootPieces (h : p.rootPieces ≠ []) : ∃ ws, p.words = [] :: ws := by
  have hhead : p.text.toList.head? = some '/' := by
    by_contra hnot
    exact h (if_neg hnot)
  obtain ⟨cs, hcs⟩ : ∃ cs, p.text.toList = '/' :: cs := List.head?_eq_some_iff.1 hhead
  refine ⟨cs.splitOn '/', ?_⟩
  rw [words, hcs]
  exact List.splitOn_append_cons_self [] cs

/-- A path that is not empty has a piece where it begins. -/
theorem exists_head?_pieces (h : p.text ≠ "") :
    ∃ piece, p.pieces.head? = some piece ∧ piece.start = 0 := by
  by_cases hroot : p.text.toList.head? = some '/'
  · rw [pieces_eq, rootPieces, if_pos hroot]
    exact ⟨_, rfl, rfl⟩
  · obtain ⟨w, ws, hwords⟩ := List.exists_cons_of_ne_nil p.words_ne_nil
    have htext := p.intercalate_words
    -- without a leading slash the first word has a letter, and gives a piece
    have hw : w ≠ [] := by
      rintro rfl
      rw [hwords] at htext
      cases ws with
      | nil => exact h (String.toList_eq_nil_iff.1 htext.symm)
      | cons v vs =>
          rw [List.intercalate_cons_cons] at htext
          exact hroot (by rw [← htext]; rfl)
    rw [pieces_eq, rootPieces, if_neg hroot, hwords, wordPieces]
    by_cases hdot : w = ['.']
    · subst hdot
      exact ⟨_, rfl, rfl⟩
    · obtain ⟨c, hpiece, -⟩ := pieceOf?_of_isStep ⟨hw, hdot⟩ 0
      rw [hpiece]
      exact ⟨_, rfl, rfl⟩

theorem components_length_pos (h : p.text ≠ "") : 0 < p.components.length := by
  rw [components, List.length_map]
  obtain ⟨piece, hpiece, -⟩ := exists_head?_pieces h
  exact List.length_pos_of_mem (List.mem_of_mem_head? hpiece)

theorem length_rootPieces_le (p : Path) : p.rootPieces.length ≤ 1 := by
  rw [rootPieces]
  split
  · exact Nat.le_refl _
  · exact Nat.zero_le _

/-- Stripping the empty path leaves a path as it is. -/
theorem stripPrefix?_empty (h : p.EndsInStep) : p.stripPrefix? ⟨""⟩ = some p := by
  obtain ⟨first, hfirst, hstart⟩ := exists_head?_pieces h.text_ne
  obtain ⟨last, hlast, hstop⟩ := getLast?_pieces
    (List.dropLast_append_getLast p.words_ne_nil).symm h
  have hempty : (⟨""⟩ : Path).components = [] := rfl
  rw [stripPrefix?, hempty, List.length_nil, List.take_zero, if_pos rfl]
  simp only [List.drop_zero, hfirst, hlast]
  rw [hstart, hstop, slice, List.take_length, List.drop_zero, String.ofList_toList]

/-- What can be stripped stands in front. -/
theorem take_components (h : p.stripPrefix? base = some rel) :
    p.components.take base.components.length = base.components := by
  by_contra hnot
  rw [stripPrefix?, if_neg hnot] at h
  cases h

/-- A word with pieces in front of it does not begin the path. -/
theorem ne_nil_of_take_pieces {count : Nat} {post : List (List Char)} {piece : Piece}
    (hcount : 0 < count) (hwords : p.words = pre ++ w :: post)
    (hpieces : wordPieces 0 pre = (wordPieces 0 p.words).take (count - p.rootPieces.length))
    (hdrop : (wordPieces 0 p.words).drop (count - p.rootPieces.length) ≠ [])
    (hpiece : pieceOf? (0 + span pre) w = some piece) : pre ≠ [] := by
  rintro rfl
  by_cases hnil : p.rootPieces = []
  · -- then a piece of a word is in front
    rw [hnil, List.length_nil, Nat.sub_zero] at hpieces hdrop
    have hlength := congrArg List.length hpieces
    rw [List.length_take, show (wordPieces 0 []).length = 0 from rfl] at hlength
    have hpos : 0 < (wordPieces 0 p.words).length := by
      by_contra hzero
      rw [Nat.not_lt_eq, Nat.le_zero, List.length_eq_zero_iff] at hzero
      exact hdrop (by rw [hzero, List.drop_nil])
    omega
  · -- the first word of an absolute path is empty
    obtain ⟨ws, hws⟩ := exists_words_of_rootPieces hnil
    rw [hws] at hwords
    obtain rfl : [] = w := (List.cons.inj hwords).1
    cases hpiece

/-- What stripping leaves of a path are its last words, if there are pieces of it. -/
theorem exists_of_drop_ne_nil (h : p.stripPrefix? base = some rel) (hbase : base.text ≠ "")
    (hdrop : p.pieces.drop base.components.length ≠ []) (hlast : p.EndsInStep) :
    ∃ pre ws, p.words = pre ++ ws ∧ pre ≠ [] ∧ Tidy ws ∧ rel = ofWords ws ∧
      (p.rootPieces ++ wordPieces 0 pre).map Piece.component = base.components := by
  have hcount : 0 < base.components.length := components_length_pos hbase
  have hroot : p.rootPieces.length ≤ base.components.length := Nat.le_trans p.length_rootPieces_le hcount
  rw [pieces_eq, List.drop_append, List.drop_eq_nil_of_le hroot, List.nil_append] at hdrop
  obtain ⟨pre, w, post, hwords, hpieces, piece, hpiece⟩ := exists_of_drop_wordPieces hdrop
  have hpre := ne_nil_of_take_pieces hcount hwords hpieces hdrop hpiece
  have hspan : 0 < 0 + span pre := by
    obtain ⟨v, pre, rfl⟩ := List.exists_cons_of_ne_nil hpre
    simp only [span, List.map_cons, List.sum_cons]
    omega
  have htidy : Tidy (w :: post) := {
    ne_nil := List.cons_ne_nil _ _
    head := isStep_of_pieceOf? hpiece hspan
    last := by
      rw [EndsInStep] at hlast
      simp only [hwords] at hlast
      rwa [List.getLast_append_of_ne_nil _ (List.cons_ne_nil w post)] at hlast
    slash := fun v hv =>
      slash_notMem_of_mem_words (p := p) (hwords ▸ List.mem_append_right _ hv) }
  have hfront : (p.rootPieces ++ wordPieces 0 pre).map Piece.component = base.components := by
    have hpieces' : p.rootPieces ++ wordPieces 0 pre = p.pieces.take base.components.length := by
      rw [hpieces, pieces_eq, List.take_append, List.take_of_length_le hroot]
    rw [hpieces', List.map_take]
    exact take_components h
  refine ⟨pre, w :: post, hwords, hpre, htidy, ?_, hfront⟩
  rw [stripPrefix?_of_append hwords htidy hfront] at h
  exact (Option.some.inj h).symm

theorem ext_toList (h : p.text.toList = q.text.toList) : p = q := by
  cases p
  cases q
  exact congrArg Path.mk (String.toList_inj.1 h)

/-- What joining puts between a text and another one. -/
def glue (cs : List Char) : List Char :=
  if cs = [] ∨ cs.getLast? = some '/' then [] else ['/']

theorem glue_nil : glue [] = [] :=
  rfl

theorem toList_join (p : Path) (hq : q.isAbsolute = false) :
    (p.join q).text.toList = p.text.toList ++ glue p.text.toList ++ q.text.toList := by
  have hempty : p.text.isEmpty = true ↔ p.text.toList = [] := by
    rw [String.isEmpty_iff, String.toList_eq_nil_iff]
  rw [join, hq, Bool.false_or, glue]
  by_cases hp : p.text.toList = []
  · rw [if_pos (hempty.2 hp), if_pos (.inl hp), hp]
    rfl
  · rw [if_neg fun h => hp (hempty.1 h)]
    by_cases hslash : p.text.toList.getLast? = some '/'
    · rw [if_pos hslash, if_pos (.inr hslash), String.toList_append, List.append_nil]
    · rw [if_neg hslash, if_neg (not_or.2 ⟨hp, hslash⟩), String.toList_append,
        String.toList_append]
      rfl

theorem glue_append {cs ds : List Char} (h : ds ≠ []) : glue (cs ++ ds) = glue ds := by
  rw [glue, glue, List.getLast?_append_of_ne_nil _ h]
  simp [h]

theorem empty_join (q : Path) : (⟨""⟩ : Path).join q = q := by
  cases hq : q.isAbsolute with
  | true =>
      rw [join, hq]
      rfl
  | false =>
      refine ext_toList ?_
      rw [toList_join _ hq]
      rfl

/-- Nothing is put behind a slash. -/
theorem glue_append_glue (cs : List Char) : glue (cs ++ glue cs) = [] := by
  by_cases h : cs = [] ∨ cs.getLast? = some '/'
  · have hglue : glue cs = [] := if_pos h
    rw [hglue, List.append_nil, hglue]
  · rw [show glue cs = ['/'] from if_neg h, glue_append (List.cons_ne_nil _ _)]
    rfl

theorem join_of_isAbsolute (p : Path) (hq : q.isAbsolute = true) : p.join q = q := by
  rw [join, hq]
  rfl

theorem isAbsolute_join (p q : Path) :
    (p.join q).isAbsolute = (q.isAbsolute || p.isAbsolute) := by
  cases hq : q.isAbsolute with
  | true =>
      rw [join, hq, Bool.true_or, if_pos rfl, hq]
      rfl
  | false =>
      rw [isAbsolute, toList_join p hq, Bool.false_or, isAbsolute]
      by_cases hp : p.text.toList = []
      · rw [isAbsolute] at hq
        rw [hp, glue_nil]
        exact hq
      · rw [List.append_assoc, List.head?_append_of_ne_nil _ hp]

/-- Joining twice is joining what was joined. -/
theorem join_assoc (p : Path) (hq : q.isAbsolute = false) (hr : r.isAbsolute = false) :
    (p.join q).join r = p.join (q.join r) := by
  have hqr : (q.join r).isAbsolute = false := by
    rw [isAbsolute_join, hq, hr]
    rfl
  refine ext_toList ?_
  rw [toList_join _ hr, toList_join p hq, toList_join p hqr, toList_join q hr]
  by_cases hnil : q.text.toList = []
  · rw [hnil, List.append_nil, glue_append_glue, glue_nil]
    simp
  · rw [glue_append hnil, List.append_assoc, List.append_assoc (_ ++ _), List.append_assoc,
      List.append_assoc, List.append_assoc]

/-- Joining puts the words of a path behind words that have the pieces of the directory. -/
theorem exists_words_join (base : Path) (hq : q.isAbsolute = false) :
    ∃ pre, (base.join q).words = pre ++ q.words ∧ (pre = [] ↔ base.text = "") ∧
      (base.join q).rootPieces ++ wordPieces 0 pre = base.pieces := by
  by_cases hbase : base.text = ""
  · obtain rfl : base = ⟨""⟩ := ext_toList (congrArg String.toList hbase)
    rw [isAbsolute, decide_eq_false_iff_not] at hq
    rw [empty_join, rootPieces, if_neg hq]
    exact ⟨[], rfl, iff_of_true rfl rfl, rfl⟩
  · have hne : base.text.toList ≠ [] := fun hnil => hbase (String.toList_eq_nil_iff.1 hnil)
    have htext := toList_join base hq
    have hroot : (base.join q).rootPieces = base.rootPieces := by
      rw [rootPieces, rootPieces, htext, List.append_assoc, List.head?_append_of_ne_nil _ hne]
    rw [hroot]
    by_cases hslash : base.text.toList.getLast? = some '/'
    · -- the slash at the end of the directory separates its words from the others
      obtain ⟨cs, hcs⟩ : ∃ cs, base.text.toList = cs ++ ['/'] :=
        List.getLast?_eq_some_iff.1 hslash
      have hwords : base.words = cs.splitOn '/' ++ [[]] := by
        rw [words, hcs]
        exact List.splitOn_append_cons_self cs []
      have hnone : ∀ s, wordPieces s [[]] = [] := fun _ => rfl
      refine ⟨cs.splitOn '/', ?_, iff_of_false (List.splitOn_ne_nil _ _) hbase, ?_⟩
      · rw [words, htext, glue, if_pos (.inr hslash), List.append_nil, hcs, List.append_assoc]
        exact List.splitOn_append_cons_self ..
      · rw [pieces_eq, hwords, wordPieces_append, hnone, List.append_nil]
    · refine ⟨base.words, ?_, iff_of_false base.words_ne_nil hbase, rfl⟩
      rw [words, htext, glue, if_neg (not_or.2 ⟨hne, hslash⟩), List.append_assoc]
      exact List.splitOn_append_cons_self ..

/-- Joining leaves the components of both. -/
theorem components_join (hbase : base.text ≠ "") (hws : Tidy ws) :
    (base.join (ofWords ws)).components = base.components ++ ws.filterMap stepOf? := by
  obtain ⟨pre, hwords, hnil, hpieces⟩ := exists_words_join base hws.isAbsolute
  rw [hws.words] at hwords
  rw [components_of_append hwords fun hpre => hbase (hnil.1 hpre), hpieces]
  rfl

/-- Joining a name adds one component. -/
theorem components_join_name (base : Path) (hw : IsStep w) (hparent : w ≠ ['.', '.'])
    (hslash : '/' ∉ w) :
    (base.join ⟨String.ofList w⟩).components = base.components ++ [.name (String.ofList w)] := by
  have hstep : stepOf? w = some (.name (String.ofList w)) := by
    rw [stepOf?, if_neg (not_not.2 hw), if_neg hparent]
  have hone : (⟨String.ofList w⟩ : Path) = ofWords [w] := by
    rw [ofWords, List.intercalate_singleton]
  have htidy : Tidy [w] := {
    ne_nil := List.cons_ne_nil _ _
    head := hw
    last := hw
    slash := fun v hv => List.mem_singleton.1 hv ▸ hslash }
  by_cases hbase : base.text = ""
  · obtain rfl : base = ⟨""⟩ := congrArg Path.mk hbase
    have hroot : (ofWords [w]).rootPieces = [] := by
      have habsolute := htidy.isAbsolute
      rw [isAbsolute, decide_eq_false_iff_not] at habsolute
      rw [rootPieces, if_neg habsolute]
    rw [empty_join, hone, components, pieces_eq, hroot, htidy.words, wordPieces, pieceOf?,
      if_neg hw.1, if_neg hw.2, if_neg hparent]
    rfl
  · rw [hone, components_join hbase htidy, List.filterMap_cons, hstep]
    rfl

/-- The text up to the end of a piece has the pieces up to there. -/
theorem pieces_slice {front behind : List Piece} {piece : Piece}
    (h : p.pieces = front ++ piece :: behind) :
    (p.slice 0 piece.stop).pieces = front ++ [piece] := by
  -- the root stands in front of the pieces of words
  have hword : ∀ front', front = p.rootPieces ++ front' →
      wordPieces 0 p.words = front' ++ piece :: behind →
      (p.slice 0 piece.stop).pieces = front ++ [piece] := by
    rintro front' rfl hpieces
    have hdrop : (wordPieces 0 p.words).drop front'.length ≠ [] := by
      rw [hpieces, List.drop_left]
      exact List.cons_ne_nil _ _
    obtain ⟨pre, w, post, hwords, htake, piece', hpiece'⟩ := exists_of_drop_wordPieces hdrop
    rw [hpieces, List.take_left] at htake
    obtain rfl : piece' = piece := by
      rw [hwords, wordPieces_append, htake, wordPieces, hpiece'] at hpieces
      exact (List.cons.inj (List.append_cancel_left hpieces)).1
    obtain ⟨hstop, hw⟩ := stop_of_pieceOf? hpiece'
    rw [Nat.zero_add] at hstop hpiece'
    have hslash : ∀ v ∈ pre ++ [w], '/' ∉ v := by
      intro v hv
      refine slash_notMem_of_mem_words (p := p) ?_
      rw [hwords]
      rcases List.mem_append.1 hv with hv | hv
      · exact List.mem_append_left _ hv
      · rw [List.mem_singleton.1 hv]
        exact List.mem_append_right _ (List.mem_cons_self ..)
    have hslice : p.slice 0 piece'.stop = ofWords (pre ++ [w]) := by
      rw [hstop, slice_append_cons hwords]
    have hroot : (p.slice 0 piece'.stop).rootPieces = p.rootPieces := by
      have hpos : piece'.stop ≠ 0 := by
        rw [hstop]
        have := List.length_pos_of_ne_nil hw
        omega
      rw [rootPieces, rootPieces, slice, String.toList_ofList, List.drop_zero, List.head?_take,
        if_neg hpos]
    rw [pieces_eq, hroot, hslice, words_ofWords (by simp) hslash, wordPieces_append, htake,
      Nat.zero_add, wordPieces, hpiece', List.append_assoc]
    rfl
  rw [pieces_eq] at h
  rcases List.append_eq_append_iff.1 h with ⟨front', hfront, hpieces⟩ | ⟨root, hroot, hpieces⟩
  · exact hword front' hfront hpieces
  · cases root with
    | nil => exact hword [] (by rw [hroot, List.append_nil, List.append_nil]) hpieces.symm
    | cons x more =>
        obtain ⟨rfl, -⟩ := List.cons.inj hpieces
        rw [rootPieces] at hroot
        split_ifs at hroot with hhead
        · obtain ⟨rfl, hx⟩ : front = [] ∧ piece = ⟨.root, 0, 1⟩ := by
            cases front with
            | nil => exact ⟨rfl, (List.cons.inj hroot).1.symm⟩
            | cons y ys => simp at hroot
          obtain ⟨cs, hcs⟩ : ∃ cs, p.text.toList = '/' :: cs := List.head?_eq_some_iff.1 hhead
          have hslice : p.slice 0 piece.stop = ⟨"/"⟩ := by
            rw [slice, hcs, hx]
            rfl
          rw [hslice, hx]
          rfl
        · simp at hroot

/-- The directory around a path has its components without the last one. -/
theorem components_parent? (h : p.parent? = some q) :
    ∃ c, c ≠ .root ∧ p.components = q.components ++ [c] := by
  rw [parent?] at h
  cases hlast : p.pieces.getLast? with
  | none =>
      rw [hlast] at h
      cases h
  | some last =>
      simp only [hlast] at h
      split_ifs at h with hroot
      obtain ⟨front, hpieces⟩ := List.getLast?_eq_some_iff.1 hlast
      refine ⟨last.component, hroot, ?_⟩
      rw [hpieces, List.dropLast_concat] at h
      rw [components, hpieces, List.map_append]
      congr 1
      cases hbefore : front.getLast? with
      | none =>
          rw [hbefore] at h
          rw [List.getLast?_eq_none_iff.1 hbefore, ← Option.some.inj h]
          rfl
      | some before =>
          rw [hbefore] at h
          obtain ⟨front', rfl⟩ := List.getLast?_eq_some_iff.1 hbefore
          rw [List.append_assoc] at hpieces
          rw [← Option.some.inj h, components, pieces_slice hpieces]

/-- A path whose last component is not the root has a directory. -/
theorem exists_parent? {c : Component} (h : p.components.getLast? = some c) (hc : c ≠ .root) :
    ∃ dir, p.parent? = some dir := by
  rw [components, List.getLast?_map] at h
  obtain ⟨last, hlast, rfl⟩ := Option.map_eq_some_iff.1 h
  rw [parent?, hlast]
  simp only [if_neg hc]
  split
  · exact ⟨_, rfl⟩
  · exact ⟨_, rfl⟩

theorem tidy_of_forall (hws : ws ≠ []) (h : ∀ w ∈ ws, IsStep w ∧ '/' ∉ w) : Tidy ws where
  ne_nil := hws
  head := (h _ (List.head_mem hws)).1
  last := (h _ (List.getLast_mem hws)).1
  slash w hw := (h w hw).2

/-- Words joined with another word. -/
theorem join_ofWords (h : ∀ v ∈ ws ++ [w], IsStep v ∧ '/' ∉ v) :
    (ofWords ws).join ⟨String.ofList w⟩ = ofWords (ws ++ [w]) := by
  have hw : (⟨String.ofList w⟩ : Path).isAbsolute = false := by
    have hone := (tidy_of_forall (List.cons_ne_nil w []) fun v hv =>
      h v (List.mem_append_right _ hv)).isAbsolute
    rwa [ofWords, List.intercalate_singleton] at hone
  refine ext_toList ?_
  rw [toList_join _ hw, ofWords, ofWords, String.toList_ofList, String.toList_ofList,
    String.toList_ofList]
  rcases List.eq_nil_or_concat ws with rfl | ⟨front, v, rfl⟩
  · rw [List.intercalate_nil, glue_nil]
    simp
  · -- the last word before is not empty and has no slash
    obtain ⟨hv, hslash⟩ := h v (by simp)
    have hglue : glue (['/'].intercalate (front ++ [v])) = ['/'] := by
      rw [intercalate_append (List.cons_ne_nil _ _), List.intercalate_singleton, glue_append hv.1,
        glue, if_neg]
      rintro (hnil | hlast)
      · exact hv.1 hnil
      · exact hslash (List.mem_of_getLast? hlast)
    rw [List.concat_eq_append, hglue, intercalate_append (List.cons_ne_nil w []),
      intercalate_append (List.cons_ne_nil v [])]
    simp

theorem isAbsolute_word (hslash : '/' ∉ w) : (⟨String.ofList w⟩ : Path).isAbsolute = false := by
  rw [isAbsolute, String.toList_ofList, decide_eq_false_iff_not]
  exact fun hhead => hslash (List.mem_of_mem_head? hhead)

theorem words_word (hslash : '/' ∉ w) : (⟨String.ofList w⟩ : Path).words = [w] := by
  rw [words, String.toList_ofList, List.splitOn_eq_singleton hslash]

/-- A path ends with the word that was joined to it. -/
theorem endsInStep_join_iff (p : Path) (hslash : '/' ∉ w) :
    (p.join ⟨String.ofList w⟩).EndsInStep ↔ IsStep w := by
  obtain ⟨pre, hwords, -⟩ := exists_words_join p (isAbsolute_word hslash)
  rw [words_word hslash] at hwords
  rw [EndsInStep]
  simp only [hwords, List.getLast_append_singleton]

end Buildwright.Path
