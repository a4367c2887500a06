import Buildwright.Make.Target
import Buildwright.Proofs.Path.Words

/-! # Makefiles, line by line

    A target is written as its head, a line for each command and an empty line, and
    a fragment as four lines and its targets.  Nothing that is written as a name or
    as a word of a command loses a line feed, so a text can be read back by lines
    if and only if nothing in it has one.

    * `IsLine` — texts without a line feed, and how names, words and scripts are written;
    * `Target.text_splits_iff` — the lines of a target;
    * `Fragment.read`, `Fragment.read_text_iff` — reading a fragment back. -/

namespace Buildwright.Make

/-- Whether a text has no line feed. -/
def IsLine (s : String) : Prop :=
  '\n' ∉ s.toList

instance (s : String) : Decidable (IsLine s) :=
  inferInstanceAs (Decidable (_ ∉ _))

/-- What the line feeds of a text separate. -/
def pieces (text : String) : List String :=
  (text.toList.splitOn '\n').map String.ofList

variable {s t sep mark : String} {texts ls : List String}

/-! ## Texts without line feeds -/

@[simp] theorem isLine_append : IsLine (s ++ t) ↔ IsLine s ∧ IsLine t := by
  simp [IsLine]

theorem isLine_empty : IsLine "" :=
  List.not_mem_nil

theorem isLine_of_mem_pieces (h : s ∈ pieces t) : IsLine s := by
  obtain ⟨w, hw, rfl⟩ := List.mem_map.1 h
  rw [IsLine, String.toList_ofList]
  exact Path.notMem_splitOn '\n' _ w hw

theorem isLine_intercalate_iff (hsep : IsLine sep) :
    IsLine (sep.intercalate texts) ↔ ∀ s ∈ texts, IsLine s := by
  induction texts with
  | nil => exact iff_of_true isLine_empty fun _ h => absurd h List.not_mem_nil
  | cons s rest ih =>
      cases rest with
      | nil => simp
      | cons t rest =>
          rw [String.intercalate_cons_cons, isLine_append, isLine_append, ih, and_iff_left hsep]
          exact List.forall_mem_cons.symm

theorem isLine_map_iff {f : String → String} (hf : ∀ s, IsLine (f s) ↔ IsLine s) :
    (∀ s ∈ texts.map f, IsLine s) ↔ ∀ s ∈ texts, IsLine s := by
  rw [List.forall_mem_map]
  exact forall₂_congr fun s _ => hf s

/-- A text that is written character by character has a line feed where there is one. -/
theorem mem_flatMap_iff_of_char {f : Char → List Char} {cs : List Char}
    (hf : ∀ c, '\n' ∈ f c ↔ c = '\n') : '\n' ∈ cs.flatMap f ↔ '\n' ∈ cs := by
  rw [List.mem_flatMap]
  simp only [hf, exists_eq_right]

@[simp] theorem isLine_name : IsLine (name s) ↔ IsLine s := by
  rw [IsLine, IsLine, name, String.toList_ofList, mem_flatMap_iff_of_char]
  intro c
  rw [nameChar]
  split_ifs with hdollar hmark
  · subst hdollar
    decide
  · rcases hmark with rfl | rfl | rfl <;> decide
  · rw [List.mem_singleton, eq_comm]

@[simp] theorem isLine_names : IsLine (names texts) ↔ ∀ s ∈ texts, IsLine s := by
  rw [names, isLine_intercalate_iff (by decide), isLine_map_iff fun s => isLine_name]

theorem mem_doubleDollars_iff {cs : List Char} : '\n' ∈ doubleDollars cs ↔ '\n' ∈ cs := by
  rw [doubleDollars, Text.replaceChar, mem_flatMap_iff_of_char]
  intro c
  split_ifs with hdollar
  · subst hdollar
    decide
  · rw [List.mem_singleton, eq_comm]

/-- The chunks of a word are the word. -/
theorem flatMap_chunksFrom (current : Shell.Chunk) (cs : List Char) :
    (Shell.chunksFrom current cs).flatMap Shell.Chunk.text = current.text ++ cs := by
  induction cs generalizing current with
  | nil => rw [Shell.chunksFrom, List.flatMap_singleton, List.append_nil]
  | cons c rest ih =>
      rw [Shell.chunksFrom]
      split_ifs
      · rw [ih, List.append_assoc, List.singleton_append]
      · rw [List.flatMap_cons, ih, List.singleton_append]

theorem flatMap_chunks (cs : List Char) :
    (Shell.chunks cs).flatMap Shell.Chunk.text = cs := by
  cases cs with
  | nil => rfl
  | cons c rest => rw [Shell.chunks, flatMap_chunksFrom, List.singleton_append]

/-- No way of quoting loses a line feed. -/
theorem mem_written_iff (chunk : Shell.Chunk) : '\n' ∈ chunk.written ↔ '\n' ∈ chunk.text := by
  rw [Shell.Chunk.written]
  split_ifs
  · rfl
  · simp
  · have hdouble : '\n' ∈ chunk.text.flatMap Shell.inDouble ↔ '\n' ∈ chunk.text := by
      refine mem_flatMap_iff_of_char fun c => ?_
      rw [Shell.inDouble]
      split_ifs with hmark
      · rw [List.mem_cons, List.mem_singleton]
        exact ⟨fun h => (h.resolve_left (by decide)).symm, fun h => .inr h.symm⟩
      · rw [List.mem_singleton, eq_comm]
    simpa using hdouble

theorem mem_quote_iff {cs : List Char} : '\n' ∈ Shell.quote cs ↔ '\n' ∈ cs := by
  rw [Shell.quote]
  split_ifs with hnull hempty
  · rfl
  · subst hempty
    decide
  · rw [← flatMap_chunks cs, List.mem_flatMap, List.mem_flatMap, flatMap_chunks]
    exact exists_congr fun chunk => and_congr_right fun _ => mem_written_iff chunk

@[simp] theorem isLine_word : IsLine (word s) ↔ IsLine s := by
  rw [IsLine, IsLine, word, String.toList_ofList, mem_doubleDollars_iff, mem_quote_iff]

@[simp] theorem isLine_line : IsLine (line texts) ↔ ∀ s ∈ texts, IsLine s := by
  rw [line, isLine_intercalate_iff (by decide), isLine_map_iff fun s => isLine_word]

/-- A script is one line, whatever its lines. -/
@[simp] theorem isLine_script (s : String) : IsLine (script s) := by
  rw [IsLine, script, String.toList_ofList, mem_doubleDollars_iff]
  refine (isLine_intercalate_iff (by decide)).2 fun t ht => ?_
  obtain ⟨cs, hcs, rfl⟩ := List.mem_map.1 ht
  obtain ⟨piece, hpiece, rfl⟩ := List.mem_map.1 (List.mem_filter.1 hcs).1
  rw [IsLine, String.toList_ofList]
  -- trimming only takes characters away
  have htrim : Text.trim piece ⊆ piece := by
    intro c hc
    rw [Text.trim, List.mem_reverse] at hc
    have hc' := List.mem_reverse.1 ((List.dropWhile_sublist _).subset hc)
    exact (List.dropWhile_sublist _).subset hc'
  exact fun hfeed => Path.notMem_splitOn '\n' _ piece hpiece (htrim hfeed)

/-! ## The lines of a text -/

/-- Lines with a line feed behind each are what the line feeds separate if and only if they have
    none of their own. -/
theorem pieces_join_iff : pieces (String.join (ls.map (· ++ "\n"))) = ls ++ [""] ↔
    ∀ l ∈ ls, IsLine l := by
  constructor
  · intro h l hl
    exact isLine_of_mem_pieces (h ▸ List.mem_append_left _ hl)
  · intro h
    induction ls with
    | nil => rfl
    | cons l rest ih =>
        obtain ⟨hl, hrest⟩ := List.forall_mem_cons.1 h
        have htext : (String.join ((l :: rest).map (· ++ "\n"))).toList =
            l.toList ++ '\n' :: (String.join (rest.map (· ++ "\n"))).toList := by
          simp
        rw [pieces, htext, List.splitOn_append_cons_self, List.splitOn_eq_singleton hl,
          List.map_append, List.map_singleton, String.ofList_toList, ← pieces, ih hrest]
        rfl

namespace Target

/-- The line of a target that says what is made, and from what. -/
def head (t : Target) : String :=
  names t.outputs ++ ":" ++ part " " t.prerequisites ++ part " | " t.orderOnly

theorem lines_eq (t : Target) : t.lines = t.head :: t.recipe.map ("\t" ++ ·) ++ [""] :=
  rfl

/-- Whether no text of a target has a line feed. -/
structure OneLine (t : Target) : Prop where
  outputs : ∀ s ∈ t.outputs, IsLine s
  prerequisites : ∀ s ∈ t.prerequisites, IsLine s
  orderOnly : ∀ s ∈ t.orderOnly, IsLine s
  recipe : ∀ s ∈ t.recipe, IsLine s

theorem isLine_part_iff (hmark : IsLine mark) :
    IsLine (part mark texts) ↔ ∀ s ∈ texts, IsLine s := by
  rw [part, ← isLine_names]
  split_ifs with hempty
  · rw [String.isEmpty_iff.1 hempty]
  · exact isLine_append.trans (and_iff_right hmark)

theorem isLine_head_iff (t : Target) : IsLine t.head ↔ (∀ s ∈ t.outputs, IsLine s) ∧
    (∀ s ∈ t.prerequisites, IsLine s) ∧ ∀ s ∈ t.orderOnly, IsLine s := by
  have hcolon : IsLine ":" := by decide
  rw [head, isLine_append, isLine_append, isLine_append, isLine_names, and_iff_left hcolon,
    isLine_part_iff (by decide), isLine_part_iff (by decide), and_assoc]

theorem oneLine_iff (t : Target) : t.OneLine ↔ ∀ l ∈ t.lines, IsLine l := by
  have htab : IsLine "\t" := by decide
  have hrecipe : (∀ l ∈ t.recipe.map ("\t" ++ ·), IsLine l) ↔ ∀ s ∈ t.recipe, IsLine s :=
    isLine_map_iff fun s => isLine_append.trans (and_iff_right htab)
  rw [lines_eq, List.cons_append, List.forall_mem_cons, List.forall_mem_append, hrecipe,
    List.forall_mem_singleton, and_iff_left isLine_empty, isLine_head_iff]
  exact ⟨fun h => ⟨⟨h.outputs, h.prerequisites, h.orderOnly⟩, h.recipe⟩,
    fun h => ⟨h.1.1, h.1.2.1, h.1.2.2, h.2⟩⟩

/-- The text of a target splits into its head, its commands behind tabs and an empty line if and
    only if nothing in it has a line feed. -/
theorem text_splits_iff (t : Target) :
    pieces t.text = t.head :: t.recipe.map ("\t" ++ ·) ++ ["", ""] ↔ t.OneLine := by
  have hlines : t.head :: t.recipe.map ("\t" ++ ·) ++ ["", ""] = t.lines ++ [""] := by
    rw [lines_eq, List.append_assoc]
    rfl
  rw [hlines, text, pieces_join_iff, oneLine_iff]

end Target

/-! ## Reading fragments back -/

/-- What stands behind a mark at the front of a text. -/
def after? (mark text : String) : Option String :=
  (mark.toList.isPrefixOf? text.toList).map String.ofList

/-- The heads and the commands of targets, of which one may have been begun. The last line
    feed ends the last line. -/
def readTargets : Option (String × List String) → List String →
    Option (List (String × List String))
  | _, [] => none
  | none, [last] => if last = "" then some [] else none
  | none, head :: rest => readTargets (some (head, [])) rest
  | some (head, recipe), line :: rest =>
    if line = "" then (readTargets none rest).map ((head, recipe) :: ·)
    else
      match after? "\t" line with
      | some command => readTargets (some (head, recipe ++ [command])) rest
      | none => none

/-- What is read in a fragment. -/
structure Reading where
  title : String
  /-- The names of the phony targets, as they are written. -/
  phony : String
  /-- The heads of the targets with their commands. -/
  targets : List (String × List String)
deriving DecidableEq, Repr

namespace Fragment

/-- Read a fragment by lines. -/
def read (text : String) : Option Reading :=
  match pieces text with
  | top :: title :: blank :: phony :: rest =>
    if top = header ∧ blank = "" then do
      let title ← after? "# " title
      let phony ← after? ".PHONY: " phony
      let targets ← readTargets none rest
      return { title, phony, targets }
    else none
  | _ => none

/-- What a fragment says. -/
def reading (f : Fragment) : Reading where
  title := f.title
  phony := names f.phony
  targets := f.targets.map fun t => (t.head, t.recipe)

/-- Whether no text of a fragment has a line feed. -/
structure OneLine (f : Fragment) : Prop where
  title : IsLine f.title
  phony : ∀ s ∈ f.phony, IsLine s
  targets : ∀ t ∈ f.targets, t.OneLine

def lines (f : Fragment) : List String :=
  header :: ("# " ++ f.title) :: "" :: (".PHONY: " ++ names f.phony) ::
    f.targets.flatMap Target.lines

end Fragment

theorem after?_eq_some_iff : after? mark s = some t ↔ s = mark ++ t := by
  rw [after?, Option.map_eq_some_iff]
  simp only [List.isPrefixOf?_eq_some_iff_append_eq]
  constructor
  · rintro ⟨rest, heq, rfl⟩
    rw [← String.toList_inj, String.toList_append, String.toList_ofList, heq]
  · rintro rfl
    exact ⟨t.toList, String.toList_append.symm, String.ofList_toList⟩

/-- The commands of a target are read up to the empty line behind them. -/
theorem readTargets_recipe (head : String) (recipe commands rest : List String) :
    readTargets (some (head, recipe)) (commands.map ("\t" ++ ·) ++ "" :: rest) =
      (readTargets none rest).map ((head, recipe ++ commands) :: ·) := by
  induction commands generalizing recipe with
  | nil => rw [List.map_nil, List.nil_append, List.append_nil, readTargets, if_pos rfl]
  | cons command commands ih =>
      have htab : "\t" ++ command ≠ "" := by simp
      rw [List.map_cons, List.cons_append, readTargets, if_neg htab, after?_eq_some_iff.2 rfl]
      dsimp only
      rw [ih, List.append_assoc, List.singleton_append]

/-- Targets are read back from their lines. -/
theorem readTargets_lines (targets : List Target) :
    readTargets none (targets.flatMap Target.lines ++ [""]) =
      some (targets.map fun t => (t.head, t.recipe)) := by
  induction targets with
  | nil => rfl
  | cons t rest ih =>
      have hlines : (t :: rest).flatMap Target.lines ++ [""] =
          t.head :: (t.recipe.map ("\t" ++ ·) ++ "" :: (rest.flatMap Target.lines ++ [""])) := by
        rw [List.flatMap_cons, Target.lines_eq]
        simp only [List.cons_append, List.append_assoc, List.nil_append]
      rw [hlines, readTargets, readTargets_recipe, ih]
      · rfl
      · simp

/-- What is read in lines has no line feed either. -/
theorem isLine_of_readTargets {begun : Option (String × List String)}
    {found : List (String × List String)} (h : readTargets begun ls = some found)
    (hls : ∀ l ∈ ls, IsLine l)
    (hbegun : ∀ b, begun = some b → IsLine b.1 ∧ ∀ c ∈ b.2, IsLine c) :
    ∀ b ∈ found, IsLine b.1 ∧ ∀ c ∈ b.2, IsLine c := by
  fun_induction readTargets begun ls generalizing found with
  | case1 => cases h
  | case2 =>
      cases h
      exact fun _ h => absurd h List.not_mem_nil
  | case3 => cases h
  | case4 head rest hne ih =>
      obtain ⟨hhead, hrest⟩ := List.forall_mem_cons.1 hls
      refine ih h hrest fun b hb => ?_
      obtain rfl := Option.some.inj hb
      exact ⟨hhead, fun _ hc => absurd hc List.not_mem_nil⟩
  | case5 head recipe rest ih =>
      obtain ⟨found, hfound, rfl⟩ := Option.map_eq_some_iff.1 h
      exact List.forall_mem_cons.2 ⟨hbegun _ rfl,
        ih hfound (List.forall_mem_cons.1 hls).2 nofun⟩
  | case6 head recipe line rest hne command hcommand ih =>
      obtain ⟨hline, hrest⟩ := List.forall_mem_cons.1 hls
      rw [after?_eq_some_iff.1 hcommand, isLine_append] at hline
      refine ih h hrest fun b hb => ?_
      obtain rfl := Option.some.inj hb
      obtain ⟨hhead, hrecipe⟩ := hbegun _ rfl
      exact ⟨hhead, List.forall_mem_append.2 ⟨hrecipe, List.forall_mem_singleton.2 hline.2⟩⟩
  | case7 => cases h

namespace Fragment

theorem text_eq (f : Fragment) : f.text = String.join (f.lines.map (· ++ "\n")) := by
  rw [← String.toList_inj, text, lines]
  simp [Target.text, String.toList_join, List.flatMap_map, List.map_flatMap, List.flatMap_assoc]

theorem oneLine_iff (f : Fragment) : f.OneLine ↔ ∀ l ∈ f.lines, IsLine l := by
  have hheader : IsLine header := by decide
  have htitle : IsLine "# " := by decide
  have hphony : IsLine ".PHONY: " := by decide
  rw [lines, List.forall_mem_cons, List.forall_mem_cons, List.forall_mem_cons, List.forall_mem_cons,
    and_iff_right hheader, isLine_append, and_iff_right htitle, and_iff_right isLine_empty,
    isLine_append, and_iff_right hphony, isLine_names, List.forall_mem_flatMap]
  simp only [← Target.oneLine_iff]
  exact ⟨fun h => ⟨h.title, h.phony, h.targets⟩, fun h => ⟨h.1, h.2.1, h.2.2⟩⟩

/-- Nothing that is read by lines has a line feed. -/
theorem isLine_of_read {text : String} {r : Reading} (h : read text = some r) :
    IsLine r.title ∧ IsLine r.phony ∧ ∀ b ∈ r.targets, IsLine b.1 ∧ ∀ c ∈ b.2, IsLine c := by
  rw [read] at h
  split at h
  · rename_i top title blank phony rest hpieces
    have hlines : ∀ l ∈ top :: title :: blank :: phony :: rest, IsLine l :=
      fun l hl => isLine_of_mem_pieces (hpieces ▸ hl)
    simp only [List.forall_mem_cons] at hlines
    obtain ⟨-, htitle, -, hphony, hrest⟩ := hlines
    split_ifs at h
    obtain ⟨title', htitle', h⟩ := Option.bind_eq_some_iff.1 h
    obtain ⟨phony', hphony', h⟩ := Option.bind_eq_some_iff.1 h
    obtain ⟨targets, htargets, h⟩ := Option.bind_eq_some_iff.1 h
    obtain rfl := Option.some.inj h
    rw [after?_eq_some_iff.1 htitle', isLine_append] at htitle
    rw [after?_eq_some_iff.1 hphony', isLine_append] at hphony
    exact ⟨htitle.2, hphony.2, isLine_of_readTargets htargets hrest nofun⟩
  · cases h

/-- A fragment is read back by lines if and only if nothing in it has a line feed. -/
theorem read_text_iff (f : Fragment) : read f.text = some f.reading ↔ f.OneLine := by
  constructor
  · intro h
    obtain ⟨htitle, hphony, htargets⟩ := isLine_of_read h
    refine ⟨htitle, isLine_names.1 hphony, fun t ht => ?_⟩
    obtain ⟨hhead, hrecipe⟩ := htargets _ (List.mem_map_of_mem ht)
    obtain ⟨houtputs, hprerequisites, horder⟩ := t.isLine_head_iff.1 hhead
    exact ⟨houtputs, hprerequisites, horder, hrecipe⟩
  · intro h
    have hpieces : pieces f.text = f.lines ++ [""] := by
      rw [text_eq, pieces_join_iff, ← oneLine_iff]
      exact h
    rw [read, hpieces, lines]
    simp only [List.cons_append, and_self, if_true, after?_eq_some_iff.2 rfl, readTargets_lines]
    rfl

end Fragment

end Buildwright.Make
