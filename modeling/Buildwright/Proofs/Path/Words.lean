import Buildwright.Path.Basic
import Mathlib.Algebra.GroupWithZero.Nat
import Mathlib.Data.List.Basic

/-! # Paths as lists of words

    The words of a path are what its slashes separate, and a path is given by
    them.  Its pieces are those of its words, each at the place where the word
    stands, so what lies behind some of the words is again a list of words.

    * `Path.words`, `Path.ofWords` — from a path to its words and back;
    * `Path.pieces_of_append` — the pieces of a path that begins with given words;
    * `Path.slice_of_append` — the text behind given words. -/

namespace Buildwright.Path

variable {p : Path} {ws vs pre rest : List (List Char)} {w : List Char} {s : Nat}

/-- What the slashes of a path separate. -/
def words (p : Path) : List (List Char) :=
  p.text.toList.splitOn '/'

/-- The path of a list of words. -/
def ofWords (ws : List (List Char)) : Path :=
  ⟨String.ofList (['/'].intercalate ws)⟩

/-- Whether a word counts wherever it stands. -/
def IsStep (w : List Char) : Prop :=
  w ≠ [] ∧ w ≠ ['.']

instance (w : List Char) : Decidable (IsStep w) :=
  inferInstanceAs (Decidable (_ ∧ _))

/-- The component that a word gives when it does not begin the path. -/
def stepOf? (w : List Char) : Option Component :=
  if ¬ IsStep w then none
  else if w = ['.', '.'] then some .parent
  else some (.name (String.ofList w))

/-- The number of characters of words with a slash behind each. -/
def span (ws : List (List Char)) : Nat :=
  (ws.map fun w => w.length + 1).sum

/-! ## Words and texts -/

theorem words_ne_nil (p : Path) : p.words ≠ [] :=
  List.splitOn_ne_nil _ _

theorem intercalate_words (p : Path) : ['/'].intercalate p.words = p.text.toList :=
  List.intercalate_splitOn _

theorem words_ofWords (hws : ws ≠ []) (h : ∀ w ∈ ws, '/' ∉ w) : (ofWords ws).words = ws := by
  rw [words, ofWords, String.toList_ofList, List.splitOn_intercalate _ h hws]

/-- No piece of a text has the character that separates them. -/
theorem notMem_splitOn (sep : Char) (cs : List Char) : ∀ w ∈ cs.splitOn sep, sep ∉ w := by
  induction hn : cs.length using Nat.strongRecOn generalizing cs with
  | ind n ih =>
      by_cases hsep : sep ∈ cs
      · -- the first separator ends the first piece
        obtain ⟨before, after, rfl, hbefore⟩ := List.eq_append_cons_of_mem hsep
        have hafter : after.length < n := by
          rw [← hn, List.length_append, List.length_cons]
          omega
        intro w hw
        rw [List.splitOn_append_cons_self, List.splitOn_eq_singleton hbefore] at hw
        rcases List.mem_cons.1 hw with rfl | hw
        · exact hbefore
        · exact ih _ hafter after rfl w hw
      · intro w hw
        rw [List.splitOn_eq_singleton hsep] at hw
        rw [List.mem_singleton.1 hw]
        exact hsep

theorem slash_notMem_of_mem_words (h : w ∈ p.words) : '/' ∉ w :=
  notMem_splitOn _ _ w h

/-- Behind some words and their slashes come the other words. -/
theorem intercalate_append (hrest : rest ≠ []) : ['/'].intercalate (pre ++ rest) =
    (pre.flatMap fun w => w ++ ['/']) ++ ['/'].intercalate rest := by
  induction pre with
  | nil => rfl
  | cons w pre ih =>
      rw [List.cons_append, List.intercalate_cons_of_ne_nil (by simp [hrest]), ih,
        List.flatMap_cons, List.append_assoc (w ++ ['/'])]

theorem length_flatMap_slash (ws : List (List Char)) :
    (ws.flatMap fun w => w ++ ['/']).length = span ws := by
  rw [List.length_flatMap, span]
  simp

/-- The last word ends where the text ends. -/
theorem length_intercalate_concat (ws : List (List Char)) (w : List Char) :
    (['/'].intercalate (ws ++ [w])).length = span ws + w.length := by
  rw [intercalate_append (List.cons_ne_nil _ _), List.length_append, length_flatMap_slash,
    List.intercalate_singleton]

/-- The text behind some words is that of the other words. -/
theorem slice_of_append (h : p.words = pre ++ rest) (hrest : rest ≠ []) :
    p.slice (span pre) p.text.toList.length = ofWords rest := by
  rw [slice, List.take_length, ← intercalate_words, h, intercalate_append hrest,
    ← length_flatMap_slash, List.drop_left]
  rfl

/-- The text up to the end of a word is that of the words up to there. -/
theorem slice_append_cons (h : p.words = pre ++ w :: rest) :
    p.slice 0 (span pre + w.length) = ofWords (pre ++ [w]) := by
  have htext : p.text.toList.take (span pre + w.length) = ['/'].intercalate (pre ++ [w]) := by
    have hrest : ∃ after, ['/'].intercalate (w :: rest) = w ++ after := by
      cases rest with
      | nil => exact ⟨[], by rw [List.intercalate_singleton, List.append_nil]⟩
      | cons v vs => exact ⟨_, by rw [List.intercalate_cons_cons, List.append_assoc]⟩
    obtain ⟨after, hafter⟩ := hrest
    rw [← intercalate_words, h, intercalate_append (List.cons_ne_nil _ _),
      intercalate_append (List.cons_ne_nil _ _), hafter, List.intercalate_singleton,
      ← List.append_assoc]
    exact List.take_left' (by rw [List.length_append, length_flatMap_slash])
  rw [slice, htext, List.drop_zero]
  rfl

/-! ## Pieces of words -/

theorem wordPieces_append (s : Nat) (ws vs : List (List Char)) :
    wordPieces s (ws ++ vs) = wordPieces s ws ++ wordPieces (s + span ws) vs := by
  induction ws generalizing s with
  | nil => rfl
  | cons w ws ih =>
      have hspan : s + w.length + 1 + span ws = s + span (w :: ws) := by
        simp only [span, List.map_cons, List.sum_cons]
        omega
      rw [List.cons_append, wordPieces, wordPieces, ih, hspan, List.append_assoc]

/-- A step gives its component at the place where it stands. -/
theorem pieceOf?_of_isStep (h : IsStep w) (s : Nat) :
    ∃ c, pieceOf? s w = some ⟨c, s, s + w.length⟩ ∧ stepOf? w = some c ∧ c ≠ .root := by
  rw [pieceOf?, if_neg h.1, if_neg h.2, stepOf?, if_neg (not_not.2 h)]
  by_cases hparent : w = ['.', '.']
  · rw [if_pos hparent, if_pos hparent]
    subst hparent
    exact ⟨_, rfl, rfl, nofun⟩
  · rw [if_neg hparent, if_neg hparent]
    exact ⟨_, rfl, rfl, nofun⟩

/-- The piece of a word ends where the word ends. -/
theorem stop_of_pieceOf? {s : Nat} {piece : Piece} (h : pieceOf? s w = some piece) :
    piece.stop = s + w.length ∧ w ≠ [] := by
  rw [pieceOf?] at h
  split_ifs at h with hnil hdot _ hparent
  · rw [← Option.some.inj h, hdot]
    exact ⟨rfl, List.cons_ne_nil _ _⟩
  · rw [← Option.some.inj h, hparent]
    exact ⟨rfl, List.cons_ne_nil _ _⟩
  · rw [← Option.some.inj h]
    exact ⟨rfl, hnil⟩

/-- Behind the beginning of a path only steps count. -/
theorem pieceOf?_of_not_isStep (h : ¬ IsStep w) (hs : 0 < s) : pieceOf? s w = none := by
  rw [IsStep, not_and_or, not_not, not_not] at h
  rcases h with rfl | rfl
  · rfl
  · rw [pieceOf?, if_neg (List.cons_ne_nil _ _), if_pos rfl, if_neg (Nat.ne_of_gt hs)]

theorem isStep_of_pieceOf? {piece : Piece} (h : pieceOf? s w = some piece) (hs : 0 < s) :
    IsStep w := by
  by_contra hnot
  rw [pieceOf?_of_not_isStep hnot hs] at h
  cases h

/-- The components of words behind the beginning of a path. -/
theorem components_wordPieces (ws : List (List Char)) (hs : 0 < s) :
    (wordPieces s ws).map Piece.component = ws.filterMap stepOf? := by
  induction ws generalizing s with
  | nil => rfl
  | cons w ws ih =>
      rw [wordPieces, List.map_append, ih (Nat.succ_pos _), List.filterMap_cons]
      by_cases hw : IsStep w
      · obtain ⟨c, hpiece, hstep, -⟩ := pieceOf?_of_isStep hw s
        rw [hpiece, hstep]
        rfl
      · rw [pieceOf?_of_not_isStep hw hs, stepOf?, if_pos hw]
        rfl

/-- The first piece of words that begin with a step. -/
theorem head?_wordPieces (h : IsStep w) (s : Nat) (ws : List (List Char)) :
    ∃ piece, (wordPieces s (w :: ws)).head? = some piece ∧ piece.start = s := by
  obtain ⟨c, hpiece, -⟩ := pieceOf?_of_isStep h s
  rw [wordPieces, hpiece]
  exact ⟨_, rfl, rfl⟩

/-- The last piece of words that end with a step. -/
theorem wordPieces_concat (h : IsStep w) (s : Nat) (ws : List (List Char)) :
    ∃ c, wordPieces s (ws ++ [w]) =
      wordPieces s ws ++ [⟨c, s + span ws, s + span ws + w.length⟩] ∧
      stepOf? w = some c ∧ c ≠ .root := by
  obtain ⟨c, hpiece, hstep, hroot⟩ := pieceOf?_of_isStep h (s + span ws)
  refine ⟨c, ?_, hstep, hroot⟩
  rw [wordPieces_append, wordPieces, hpiece]
  rfl

/-- What is left of the pieces of words are the pieces of the words from some one on. -/
theorem exists_of_drop_wordPieces {k : Nat} (h : (wordPieces s ws).drop k ≠ []) :
    ∃ pre w post, ws = pre ++ w :: post ∧ wordPieces s pre = (wordPieces s ws).take k ∧
      ∃ piece, pieceOf? (s + span pre) w = some piece := by
  induction ws generalizing s k with
  | nil => exact absurd List.drop_nil h
  | cons w ws ih =>
      cases hpiece : pieceOf? s w with
      | none =>
          have hall : wordPieces s (w :: ws) = wordPieces (s + w.length + 1) ws := by
            rw [wordPieces, hpiece]
            rfl
          rw [hall] at h
          obtain ⟨pre, v, post, rfl, htake, hv⟩ := ih h
          refine ⟨w :: pre, v, post, rfl, ?_, ?_⟩
          · rw [hall, ← htake, wordPieces, hpiece]
            rfl
          · rwa [show s + span (w :: pre) = s + w.length + 1 + span pre by
              simp only [span, List.map_cons, List.sum_cons]; omega]
      | some piece =>
          cases k with
          | zero => exact ⟨[], w, ws, rfl, rfl, piece, hpiece⟩
          | succ k =>
              have hall : wordPieces s (w :: ws) =
                  piece :: wordPieces (s + w.length + 1) ws := by
                rw [wordPieces, hpiece]
                rfl
              rw [hall, List.drop_succ_cons] at h
              obtain ⟨pre, v, post, rfl, htake, hv⟩ := ih h
              refine ⟨w :: pre, v, post, rfl, ?_, ?_⟩
              · rw [hall, List.take_succ_cons, ← htake, wordPieces, hpiece]
                rfl
              · rwa [show s + span (w :: pre) = s + w.length + 1 + span pre by
                  simp only [span, List.map_cons, List.sum_cons]; omega]

/-! ## Pieces of a path -/

/-- The piece of a leading slash. -/
def rootPieces (p : Path) : List Piece :=
  if p.text.toList.head? = some '/' then [⟨.root, 0, 1⟩] else []

theorem pieces_eq (p : Path) : p.pieces = p.rootPieces ++ wordPieces 0 p.words :=
  rfl

/-- The pieces of a path that begins with given words. -/
theorem pieces_of_append (h : p.words = pre ++ rest) :
    p.pieces = (p.rootPieces ++ wordPieces 0 pre) ++ wordPieces (span pre) rest := by
  rw [pieces_eq, h, wordPieces_append, List.append_assoc, Nat.zero_add]

/-- A path whose last word is a step ends with its last piece. -/
theorem getLast?_pieces (h : p.words = ws ++ [w]) (hw : IsStep w) :
    ∃ piece, p.pieces.getLast? = some piece ∧ piece.stop = p.text.toList.length := by
  obtain ⟨c, hpieces, -⟩ := wordPieces_concat hw 0 ws
  have hlength : p.text.toList.length = span ws + w.length := by
    rw [← intercalate_words, h, length_intercalate_concat]
  rw [Nat.zero_add] at hpieces
  refine ⟨⟨c, span ws, span ws + w.length⟩, ?_, hlength.symm⟩
  rw [pieces_eq, h, hpieces, ← List.append_assoc, List.getLast?_concat]

end Buildwright.Path
