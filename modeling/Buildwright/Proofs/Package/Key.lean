import Buildwright.Proofs.Path.Relative
import Buildwright.Reference

/-! # Names in package keys

    The segments of a normalized key are names, so they are the words of the
    directory of the package, and normalizing the key again changes nothing.
    References resolve to normalized keys, with or without the mark of the
    builtin tree.

    * `Key.IsName` — the words that normalized keys consist of;
    * `Key.normalize_normalize` — normalizing twice;
    * `Key.Formed`, `Key.Formed.resolve` — the keys that loading meets;
    * `Key.Formed.exists_front` — the forms of a key of the builtin tree;
    * `Key.Mimics`, `Key.exists_mark_append_iff` — paths that give such a key. -/

namespace Buildwright.Package.Key

open Buildwright.Path (IsStep ofWords)

variable {key : String} {ws : List (List Char)}

/-- Whether a word is a name in a package path. -/
def IsName (w : List Char) : Prop :=
  IsStep w ∧ w ≠ ['.', '.'] ∧ '/' ∉ w

/-- Every step leaves names. -/
theorem isName_step {walked : List (List Char)} {segment : List Char}
    (h : ∀ w ∈ walked, IsName w) (hslash : '/' ∉ segment) :
    ∀ w ∈ step walked segment, IsName w := by
  rw [step]
  by_cases hskip : segment = [] ∨ segment = ['.']
  · rwa [if_pos hskip]
  · rw [if_neg hskip]
    by_cases hparent : segment = ['.', '.']
    · rw [if_pos hparent]
      exact fun w hw => h w (List.mem_of_mem_drop hw)
    · rw [if_neg hparent]
      exact List.forall_mem_cons.2 ⟨⟨not_or.1 hskip, hparent, hslash⟩, h⟩

/-- The segments of a package path are names. -/
theorem isName_of_mem_segments {path : List Char} : ∀ w ∈ segments path, IsName w := by
  have hfold : ∀ (l : List (List Char)) walked, (∀ w ∈ l, '/' ∉ w) → (∀ w ∈ walked, IsName w) →
      ∀ w ∈ l.foldl step walked, IsName w := by
    intro l
    induction l with
    | nil => exact fun _ _ h => h
    | cons segment rest ih =>
        intro walked hl h
        obtain ⟨hsegment, hrest⟩ := List.forall_mem_cons.1 hl
        exact ih _ hrest (isName_step h hsegment)
  intro w hw
  exact hfold _ [] (Path.notMem_splitOn '/' path) (fun _ h => absurd h List.not_mem_nil) w
    (List.mem_reverse.1 hw)

/-- Names are walked one after the other. -/
theorem foldl_step (h : ∀ w ∈ ws, IsName w) (walked : List (List Char)) :
    ws.foldl step walked = ws.reverse ++ walked := by
  induction ws generalizing walked with
  | nil => rfl
  | cons w ws ih =>
      obtain ⟨⟨hstep, hparent, -⟩, hws⟩ := List.forall_mem_cons.1 h
      have hw : step walked w = w :: walked := by
        rw [step, if_neg (not_or.2 hstep), if_neg hparent]
      rw [List.foldl_cons, hw, ih hws, List.reverse_cons, List.append_assoc]
      rfl

/-- A path of names has these segments. -/
theorem segments_intercalate (h : ∀ w ∈ ws, IsName w) : segments (['/'].intercalate ws) = ws := by
  rw [segments]
  cases ws with
  | nil => rfl
  | cons w ws =>
      rw [List.splitOn_intercalate _ (fun v hv => (h v hv).2.2) (List.cons_ne_nil _ _),
        foldl_step h, List.append_nil, List.reverse_reverse]

/-- The names of a path that continues another one. -/
theorem segments_append_slash (cs ds : List Char) : segments (cs ++ '/' :: ds) =
    ((ds.splitOn '/').foldl step (segments cs).reverse).reverse := by
  rw [segments, List.splitOn_append_cons_self, List.foldl_append, segments, List.reverse_reverse]

theorem toList_normalize (path : String) :
    (normalize path).toList = ['/'].intercalate (segments path.toList) :=
  String.toList_ofList

/-- Normalizing twice is normalizing once. -/
theorem normalize_normalize (path : String) : normalize (normalize path) = normalize path := by
  rw [normalize, toList_normalize, segments_intercalate isName_of_mem_segments, normalize]

/-! ## The keys that loading meets -/

/-- Whether a key is normalized, apart from the mark of the builtin tree. -/
def Formed (key : String) : Prop :=
  ∃ path, key = normalize path ∨ key = builtinMark ++ normalize path

theorem formed_empty : Formed "" :=
  ⟨"", .inl rfl⟩

theorem formed_normalize (path : String) : Formed (normalize path) :=
  ⟨path, .inl rfl⟩

/-- A reference in a package resolves to a key that is formed as that of the package. -/
theorem Formed.resolve (h : Formed key) (r : Reference) : Formed (r.resolve key) := by
  rw [Reference.resolve]
  cases r.position with
  | absolute => exact formed_normalize _
  | relative => exact formed_normalize _
  | builtin => exact ⟨_, .inr rfl⟩
  | this => exact h

theorem isBuiltin_mark_append (key : String) : isBuiltin (builtinMark ++ key) = true := by
  rw [isBuiltin, String.toList_append]
  rfl

/-- What may stand before the names of a key of the builtin tree: nothing, or one word that
    is no name. -/
def fronts : List (List (List Char)) :=
  [[], [[]], [['.']], [['.', '.']]]

/-- A word and names, read as one of the fronts and names. -/
theorem exists_front_of_word {w : List Char} (hw : '/' ∉ w) (h : ∀ v ∈ ws, IsName v) :
    ∃ front ∈ fronts, ∃ names, (∀ v ∈ names, IsName v) ∧ (front = [[]] → names ≠ []) ∧
      ['/'].intercalate (w :: ws) = ['/'].intercalate (front ++ names) := by
  by_cases hempty : w = []
  · subst hempty
    cases ws with
    | nil => exact ⟨[], by decide, [], nofun, nofun, rfl⟩
    | cons v vs => exact ⟨[[]], by decide, v :: vs, h, fun _ => List.cons_ne_nil _ _, rfl⟩
  · by_cases hdot : w = ['.']
    · exact ⟨[w], by subst hdot; decide, ws, h, fun he => absurd (List.cons.inj he).1 hempty, rfl⟩
    · by_cases hparent : w = ['.', '.']
      · exact ⟨[w], by subst hparent; decide, ws, h, fun he => absurd (List.cons.inj he).1 hempty,
          rfl⟩
      · exact ⟨[], by decide, w :: ws,
          List.forall_mem_cons.2 ⟨⟨⟨hempty, hdot⟩, hparent, hw⟩, h⟩, nofun, rfl⟩

/-- Names that are joined to a key with the mark begin with the mark. -/
theorem exists_cons_of_mark (h : ∀ w ∈ ws, IsName w)
    (hmark : ['#', '#'] <+: ['/'].intercalate ws) :
    ∃ w rest, ws = ('#' :: '#' :: w) :: rest := by
  obtain ⟨after, hafter⟩ := hmark
  -- the mark is in the first word, since a second word would bring a slash
  match ws, h, hafter with
  | [] :: _, h, _ => exact absurd rfl (h [] (List.mem_cons_self ..)).1.1
  | [[_]], _, hafter => cases hafter
  | [c] :: v :: vs, _, hafter =>
      rw [List.intercalate_cons_cons] at hafter
      cases hafter
  | (c :: d :: w) :: rest, h, hafter =>
      rw [List.intercalate_cons_cons_left, List.intercalate_cons_cons_left] at hafter
      obtain ⟨rfl, rfl, -⟩ : '#' = c ∧ '#' = d ∧ _ := by simpa using hafter
      exact ⟨w, rest, rfl⟩

/-- A name behind the mark has no slash either. -/
theorem slash_notMem_of_mark {w : List Char} {rest : List (List Char)}
    (h : ∀ v ∈ ('#' :: '#' :: w) :: rest, IsName v) : '/' ∉ w := fun hslash =>
  (h _ (List.mem_cons_self ..)).2.2 (List.mem_cons_of_mem _ (List.mem_cons_of_mem _ hslash))

theorem intercalate_mark (w : List Char) (rest : List (List Char)) :
    ['/'].intercalate (('#' :: '#' :: w) :: rest) =
      ['#', '#'] ++ ['/'].intercalate (w :: rest) := by
  rw [List.intercalate_cons_cons_left, List.intercalate_cons_cons_left]
  rfl

/-- A name behind the mark is a name, and so is the mark alone. -/
theorem isName_mark {w : List Char} (hw : '/' ∉ w) : IsName ('#' :: '#' :: w) :=
  ⟨⟨List.cons_ne_nil _ _, by simp⟩, by simp, by simpa using hw⟩

/-- The keys that loading meets are normalized: with the mark too, what begins a key is a
    name. -/
theorem Formed.normalize_eq (h : Formed key) : normalize key = key := by
  obtain ⟨path, rfl | rfl⟩ := h
  · exact normalize_normalize path
  · have hnames : ∀ v ∈ segments path.toList, IsName v := isName_of_mem_segments
    refine String.toList_inj.1 ?_
    rw [toList_normalize, String.toList_append, toList_normalize]
    cases hsegments : segments path.toList with
    | nil => rfl
    | cons w rest =>
        rw [hsegments] at hnames
        obtain ⟨hw, hrest⟩ := List.forall_mem_cons.1 hnames
        show ['/'].intercalate (segments (['#', '#'] ++ ['/'].intercalate (w :: rest))) =
          ['#', '#'] ++ ['/'].intercalate (w :: rest)
        rw [← intercalate_mark, segments_intercalate (List.forall_mem_cons.2
          ⟨isName_mark hw.2.2, hrest⟩)]

/-- A key is the text of its names. -/
theorem Formed.toList_eq (h : Formed key) :
    key.toList = ['/'].intercalate (segments key.toList) := by
  rw [← toList_normalize, h.normalize_eq]

/-- A path gives a key with the mark if and only if its first name begins with it. -/
theorem isBuiltin_normalize_iff {path : String} : isBuiltin (normalize path) = true ↔
    ∃ w rest, segments path.toList = ('#' :: '#' :: w) :: rest := by
  rw [isBuiltin, List.isPrefixOf_iff_prefix, toList_normalize]
  constructor
  · exact exists_cons_of_mark isName_of_mem_segments
  · rintro ⟨w, rest, heq⟩
    rw [heq, intercalate_mark]
    exact List.prefix_append ..

/-- The first segment of a key of the builtin tree begins with the mark. -/
theorem Formed.exists_segments (h : Formed key) (hkey : isBuiltin key = true) :
    ∃ w rest, segments key.toList = ('#' :: '#' :: w) :: rest ∧
      key.toList = ['#', '#'] ++ ['/'].intercalate (w :: rest) := by
  obtain ⟨w, rest, hsegments⟩ := isBuiltin_normalize_iff.1 (h.normalize_eq.symm ▸ hkey)
  refine ⟨w, rest, hsegments, ?_⟩
  rw [h.toList_eq, hsegments, intercalate_mark]

/-- A key of the builtin tree is the mark, one of the fronts and names. -/
theorem Formed.exists_front (h : Formed key) (hkey : isBuiltin key = true) :
    ∃ front ∈ fronts, ∃ names, (∀ w ∈ names, IsName w) ∧ (front = [[]] → names ≠ []) ∧
      key.toList = ['#', '#'] ++ ['/'].intercalate (front ++ names) := by
  obtain ⟨w, rest, hsegments, htext⟩ := h.exists_segments hkey
  have hnames : ∀ v ∈ ('#' :: '#' :: w) :: rest, IsName v := hsegments ▸ isName_of_mem_segments
  obtain ⟨front, hfront, names, hrest, hne, heq⟩ :=
    exists_front_of_word (slash_notMem_of_mark hnames) (List.forall_mem_cons.1 hnames).2
  exact ⟨front, hfront, names, hrest, hne, by rw [htext, heq]⟩

/-! ## Project paths that look like the builtin tree -/

/-- Whether the names of a path are those of a key of the builtin tree: the first name is the
    mark and a name, or the mark is all. -/
def Mimics (ws : List (List Char)) : Prop :=
  ∃ w rest, ws = ('#' :: '#' :: w) :: rest ∧ (IsName w ∨ w = [] ∧ rest = [])

/-- The first of some words is a name, or nothing at all, if their text is one of names. -/
theorem isName_of_intercalate_eq {w : List Char} {rest names : List (List Char)}
    (hwords : ∀ v ∈ w :: rest, '/' ∉ v) (hnames : ∀ v ∈ names, IsName v)
    (h : ['/'].intercalate (w :: rest) = ['/'].intercalate names) :
    IsName w ∨ w = [] ∧ rest = [] := by
  cases names with
  | nil =>
      cases rest with
      | nil =>
          rw [List.intercalate_singleton] at h
          exact .inr ⟨h, rfl⟩
      | cons v vs =>
          rw [List.intercalate_cons_cons] at h
          exact absurd h (by simp)
  | cons v vs =>
      have hsplit := congrArg (List.splitOn '/') h
      rw [List.splitOn_intercalate _ hwords (List.cons_ne_nil _ _),
        List.splitOn_intercalate _ (fun u hu => (hnames u hu).2.2) (List.cons_ne_nil _ _)] at hsplit
      obtain ⟨rfl, -⟩ := List.cons.inj hsplit
      exact .inl (hnames w (List.mem_cons_self ..))

/-- A path gives the key of a package of the builtin tree if and only if its names are those
    of one. -/
theorem exists_mark_append_iff {path : String} :
    (∃ path', normalize path = builtinMark ++ normalize path') ↔ Mimics (segments path.toList) := by
  have hnames : ∀ w ∈ segments path.toList, IsName w := isName_of_mem_segments
  constructor
  · rintro ⟨path', heq⟩
    obtain ⟨w, rest, hsegments⟩ :=
      isBuiltin_normalize_iff.1 ((congrArg isBuiltin heq).trans (isBuiltin_mark_append _))
    have htext : ['/'].intercalate (w :: rest) = ['/'].intercalate (segments path'.toList) := by
      have hlist := congrArg String.toList heq
      rw [String.toList_append, toList_normalize, toList_normalize, hsegments,
        intercalate_mark] at hlist
      exact List.append_cancel_left hlist
    rw [hsegments] at hnames
    have hwords : ∀ v ∈ w :: rest, '/' ∉ v := List.forall_mem_cons.2
      ⟨slash_notMem_of_mark hnames, fun v hv => (hnames v (List.mem_cons_of_mem _ hv)).2.2⟩
    exact ⟨w, rest, hsegments, isName_of_intercalate_eq hwords isName_of_mem_segments htext⟩
  · rintro ⟨w, rest, hsegments, hw⟩
    rw [hsegments] at hnames
    refine ⟨String.ofList (['/'].intercalate (w :: rest)), String.toList_inj.1 ?_⟩
    rw [String.toList_append, toList_normalize, toList_normalize, hsegments, intercalate_mark,
      String.toList_ofList]
    rcases hw with hw | ⟨rfl, rfl⟩
    · rw [segments_intercalate (List.forall_mem_cons.2
        ⟨hw, fun v hv => hnames v (List.mem_cons_of_mem _ hv)⟩)]
      rfl
    · rfl

end Buildwright.Package.Key
