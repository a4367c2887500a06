import Buildwright.FileTree.Disk
import Buildwright.Proofs.Path.Relative
import Mathlib.Data.String.Basic

/-! # Spellings of a path on a disk

    A disk follows the names of a path, and paths with the same components have
    the same names.  So a file is read alike under every spelling that is not too
    long and does not end as a directory.

    * `Path.steps`, `Path.steps_eq_components` — the names that are followed;
    * `Disk.locate_same` — spellings lead to one place;
    * `Disk.readText_same` — and to one text. -/

namespace Buildwright

namespace Path

variable {p q : Path} {ws : List (List Char)} {w : List Char} {s : Nat}

/-- The name that is followed at a component. -/
def stepText? : Component → Option String
  | .parent => some ".."
  | .name n => some n
  | _ => none

/-- The names that a path leads along. -/
def steps (p : Path) : List String :=
  (p.words.filter IsStep).map String.ofList

/-- Words are followed where they give a component. -/
theorem stepText?_pieceOf? (s : Nat) (w : List Char) :
    ((pieceOf? s w).map Piece.component).bind stepText? =
      if IsStep w then some (String.ofList w) else none := by
  by_cases hw : IsStep w
  · obtain ⟨c, hpiece, hstep, -⟩ := pieceOf?_of_isStep hw s
    rw [hpiece, if_pos hw, Option.map_some, Option.bind_some]
    rw [stepOf?, if_neg (not_not.2 hw)] at hstep
    by_cases hparent : w = ['.', '.']
    · rw [if_pos hparent, Option.some_inj] at hstep
      subst hparent hstep
      rfl
    · rw [if_neg hparent, Option.some_inj] at hstep
      subst hstep
      rfl
  · rw [if_neg hw]
    rw [IsStep, not_and_or, not_not, not_not] at hw
    rcases hw with rfl | rfl
    · rfl
    · -- a dot gives a component where the path begins, but none that is followed
      rw [pieceOf?, if_neg (List.cons_ne_nil _ _), if_pos rfl]
      split <;> rfl

theorem filterMap_wordPieces (s : Nat) (ws : List (List Char)) :
    ((wordPieces s ws).map Piece.component).filterMap stepText? =
      (ws.filter IsStep).map String.ofList := by
  induction ws generalizing s with
  | nil => rfl
  | cons w ws ih =>
      have hw := stepText?_pieceOf? s w
      rw [wordPieces, List.map_append, List.filterMap_append, ih]
      by_cases hstep : IsStep w
      · rw [if_pos hstep] at hw
        rw [List.filter_cons_of_pos (by simpa using hstep), List.map_cons]
        cases hpiece : pieceOf? s w with
        | none =>
            rw [hpiece] at hw
            cases hw
        | some piece =>
            rw [hpiece, Option.map_some, Option.bind_some] at hw
            simp [hw]
      · rw [if_neg hstep] at hw
        rw [List.filter_cons_of_neg (by simpa using hstep)]
        cases hpiece : pieceOf? s w with
        | none => rfl
        | some piece =>
            rw [hpiece, Option.map_some, Option.bind_some] at hw
            simp [hw]

/-- The names that a path leads along are those of its components. -/
theorem steps_eq_components (p : Path) : p.steps = p.components.filterMap stepText? := by
  have hroot : (p.rootPieces.map Piece.component).filterMap stepText? = [] := by
    rw [rootPieces]
    split <;> rfl
  rw [components, pieces_eq, List.map_append, List.filterMap_append, hroot, filterMap_wordPieces]
  rfl

/-- Pieces of words are no slashes. -/
theorem component_ne_root {piece : Piece} (h : piece ∈ wordPieces s ws) :
    piece.component ≠ .root := by
  induction ws generalizing s with
  | nil => cases h
  | cons w ws ih =>
      rw [wordPieces, List.mem_append, Option.mem_toList] at h
      rcases h with h | h
      · by_cases hw : IsStep w
        · obtain ⟨c, hpiece, -, hroot⟩ := pieceOf?_of_isStep hw s
          rw [hpiece, Option.some_inj] at h
          rw [← h]
          exact hroot
        · rw [IsStep, not_and_or, not_not, not_not] at hw
          rcases hw with rfl | rfl
          · cases h
          · rw [pieceOf?, if_neg (List.cons_ne_nil _ _), if_pos rfl] at h
            split at h
            · rw [Option.some_inj] at h
              rw [← h]
              intro hroot
              cases hroot
            · cases h
      · exact ih h

/-- A path is absolute if and only if its components begin with the root. -/
theorem isAbsolute_eq_decide (p : Path) :
    p.isAbsolute = decide (Component.root ∈ p.components) := by
  rw [isAbsolute, components, pieces_eq, rootPieces]
  by_cases hhead : p.text.toList.head? = some '/'
  · simp [hhead]
  · have hnot : Component.root ∉ (wordPieces 0 p.words).map Piece.component := by
      intro hmem
      obtain ⟨piece, hpiece, hroot⟩ := List.mem_map.1 hmem
      exact component_ne_root hpiece hroot
    simpa [hhead] using hnot

theorem mem_intercalate_of_mem {c : Char} (hw : w ∈ ws) (hc : c ∈ w) :
    c ∈ ['/'].intercalate ws := by
  obtain ⟨before, after, rfl⟩ := List.append_of_mem hw
  rw [intercalate_append (List.cons_ne_nil _ _), List.mem_append]
  refine .inr ?_
  cases after with
  | nil => rwa [List.intercalate_singleton]
  | cons v vs =>
      rw [List.intercalate_cons_cons, List.append_assoc]
      exact List.mem_append_left _ hc

theorem exists_of_mem_intercalate {c : Char} (h : c ∈ ['/'].intercalate ws) (hslash : c ≠ '/') :
    ∃ w ∈ ws, c ∈ w := by
  rcases List.eq_nil_or_concat ws with rfl | ⟨front, w, rfl⟩
  · cases h
  · rw [List.concat_eq_append, intercalate_append (List.cons_ne_nil _ _), List.mem_append,
      List.intercalate_singleton, List.mem_flatMap] at h
    rcases h with ⟨v, hv, hc⟩ | hc
    · rcases List.mem_append.1 hc with hc | hc
      · exact ⟨v, by simp [hv], hc⟩
      · exact absurd (List.mem_singleton.1 hc) hslash
    · exact ⟨w, by simp, hc⟩

/-- A letter of a path that neither separates names nor is a dot is one of a name. -/
theorem mem_text_iff {c : Char} (hslash : c ≠ '/') (hdot : c ≠ '.') :
    c ∈ p.text.toList ↔ ∃ n ∈ p.steps, c ∈ n.toList := by
  rw [← intercalate_words]
  constructor
  · intro h
    obtain ⟨w, hw, hc⟩ := exists_of_mem_intercalate h hslash
    have hstep : IsStep w := by
      refine ⟨List.ne_nil_of_mem hc, ?_⟩
      rintro rfl
      exact hdot (List.mem_singleton.1 hc)
    refine ⟨String.ofList w, List.mem_map_of_mem (List.mem_filter.2 ⟨hw, by simpa using hstep⟩), ?_⟩
    rwa [String.toList_ofList]
  · rintro ⟨n, hn, hc⟩
    obtain ⟨w, hw, rfl⟩ := List.mem_map.1 hn
    rw [String.toList_ofList] at hc
    exact mem_intercalate_of_mem (List.mem_filter.1 hw).1 hc

/-- The last component of a path that ends in a step. -/
theorem getLast?_components (h : p.EndsInStep) :
    p.components.getLast? = stepOf? (p.words.getLast p.words_ne_nil) := by
  obtain ⟨c, hpieces, hstep, -⟩ := wordPieces_concat h 0 p.words.dropLast
  rw [List.dropLast_append_getLast] at hpieces
  rw [components, pieces_eq, hpieces, ← List.append_assoc, List.map_append, List.map_singleton,
    List.getLast?_concat, hstep]

end Path

namespace Disk

variable {d : Disk} {p q : Path} {place : Place} {text : String}

/-- The names that a disk follows are those that a path leads along. -/
theorem filter_words (p : Path) : (words p).filter (fun w => w ≠ "" && w ≠ ".") = p.steps := by
  have hstep : ∀ w : List Char,
      (decide (String.ofList w ≠ "") && decide (String.ofList w ≠ ".")) =
        decide (Path.IsStep w) := by
    intro w
    rw [← Bool.decide_and]
    refine decide_eq_decide.2 (and_congr (not_congr ?_) (not_congr ?_))
    · exact String.ofList_eq
    · exact String.ofList_eq
  rw [words, Path.steps, List.filter_map]
  exact congrArg _ (List.filter_congr fun w _ => hstep w)

/-- A path leads to a file only if it ends in a name. -/
theorem wantsDirectory_eq_false_iff : wantsDirectory p = false ↔
    p.EndsInStep ∧ p.components.getLast? ≠ some .parent := by
  have hlast : (words p).getLast? = some (String.ofList (p.words.getLast p.words_ne_nil)) := by
    rw [words, List.getLast?_map, show p.text.toList.splitOn '/' = p.words from rfl,
      List.getLast?_eq_some_getLast p.words_ne_nil]
    rfl
  have hparent : p.EndsInStep → (p.components.getLast? = some .parent ↔
      p.words.getLast p.words_ne_nil = ['.', '.']) := by
    intro h
    have hstep : ¬ ¬ Path.IsStep (p.words.getLast p.words_ne_nil) := not_not.2 h
    rw [Path.getLast?_components h, Path.stepOf?, if_neg hstep]
    constructor
    · intro heq
      by_contra hnot
      rw [if_neg hnot] at heq
      cases heq
    · intro heq
      rw [if_pos heq]
  rw [wantsDirectory, hlast]
  simp only [Bool.or_eq_false_iff, decide_eq_false_iff_not, String.ofList_eq]
  constructor
  · rintro ⟨⟨hempty, hdot⟩, hdots⟩
    have hstep : p.EndsInStep := ⟨hempty, hdot⟩
    exact ⟨hstep, fun h => hdots ((hparent hstep).1 h)⟩
  · rintro ⟨hstep, hnot⟩
    exact ⟨hstep, fun h => hnot ((hparent hstep).2 h)⟩

/-- A path that can be a path leads where its names lead. -/
theorem locate_eq_walk (hempty : p.text ≠ "") (hzero : '\x00' ∉ p.text.toList)
    (hlong : p.text.utf8ByteSize ≤ pathLimit) :
    d.locate p = walk d.tree (if p.isAbsolute then [] else d.current) p.steps := by
  have hnul : p.text.contains '\x00' = decide ('\x00' ∈ p.text.toList) :=
    String.contains_char_eq
  rw [locate, hnul, filter_words, if_neg (by simpa using hempty), if_neg (by simpa using hzero),
    if_neg (Nat.not_lt.2 hlong)]

/-- A path leads to a place if it can be a path and its names lead there. -/
theorem locate_eq_ok_iff : d.locate p = .ok place ↔ p.text ≠ "" ∧ '\x00' ∉ p.text.toList ∧
    p.text.utf8ByteSize ≤ pathLimit ∧
      walk d.tree (if p.isAbsolute then [] else d.current) p.steps = .ok place := by
  by_cases hempty : p.text = ""
  · rw [locate, if_pos (by rw [hempty]; rfl)]
    exact iff_of_false nofun fun h => h.1 hempty
  by_cases hzero : '\x00' ∈ p.text.toList
  · have hnul : p.text.contains '\x00' = true := by simpa using hzero
    rw [locate, if_neg (by simpa using hempty), if_pos hnul]
    exact iff_of_false nofun fun h => h.2.1 hzero
  by_cases hlong : p.text.utf8ByteSize ≤ pathLimit
  · rw [locate_eq_walk hempty hzero hlong]
    exact ⟨fun h => ⟨hempty, hzero, hlong, h⟩, fun h => h.2.2.2⟩
  · have hnul : ¬ p.text.contains '\x00' = true := by simpa using hzero
    rw [locate, if_neg (by simpa using hempty), if_neg hnul, if_pos (Nat.not_le.1 hlong)]
    exact iff_of_false nofun fun h => absurd h.2.2.1 hlong

/-- What can be read is a text file at a place, and its path ends in a name. -/
theorem readText_eq_ok_iff : d.readText p = .ok text ↔ ∃ place content,
    d.locate p = .ok place ∧ d.tree.find? place = some (.file content) ∧
      wantsDirectory p = false ∧ String.fromUTF8? content = some text := by
  constructor
  · intro h
    cases hplace : d.locate p with
    | error refusal =>
        simp only [readText, read, entry, hplace] at h
        cases h
    | ok place =>
        cases hnode : d.tree.find? place with
        | none =>
            simp only [readText, read, entry, hplace, bind, Except.bind, hnode] at h
            cases h
        | some node =>
            cases node with
            | directory =>
                simp only [readText, read, entry, hplace, bind, Except.bind, hnode] at h
                cases h
            | file content =>
                simp only [readText, read, entry, hplace, bind, Except.bind, hnode] at h
                cases hwants : wantsDirectory p with
                | true =>
                    rw [hwants] at h
                    cases h
                | false =>
                    cases htext : String.fromUTF8? content with
                    | none =>
                        simp only [hwants, Bool.false_eq_true, if_false, htext] at h
                        cases h
                    | some found =>
                        simp only [hwants, Bool.false_eq_true, if_false, htext] at h
                        obtain rfl := Except.ok.inj h
                        exact ⟨place, content, rfl, hnode, rfl, htext⟩
  · rintro ⟨place, content, hplace, hnode, hwants, htext⟩
    simp only [readText, read, entry, hplace, bind, Except.bind, hnode, hwants,
      Bool.false_eq_true, if_false, htext]

end Disk

end Buildwright
