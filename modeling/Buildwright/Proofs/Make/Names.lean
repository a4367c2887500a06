import Buildwright.Proofs.Make.Lines

/-! # Lists of names, read back

    In a list of names a backslash in front of a blank, a colon or a hash makes it part of a
    name, and two dollar signs are one.  A backslash itself is written as it is.  Inside a name
    this does no harm, for what is written behind it begins with another backslash or with a
    character that needs none.  At the end of a name it takes the blank behind the name for
    itself, so two names become one; and tabs and line feeds are written as they are, so they
    always separate names.

    * `Make.letters`, `Make.readNames` — how a list of names is read;
    * `Make.letters_flatMap_nameChar` — what is written of a name is read as its characters;
    * `Make.names_read_back_iff` — which lists are read back. -/

namespace Buildwright.Make

/-! ## How names are read -/

/-- What a text says, character by character: the characters of names, and `none` where a blank
    separates two of them. -/
def letters : List Char → List (Option Char)
  | '$' :: '$' :: rest => some '$' :: letters rest
  | '\\' :: ' ' :: rest => some ' ' :: letters rest
  | '\\' :: ':' :: rest => some ':' :: letters rest
  | '\\' :: '#' :: rest => some '#' :: letters rest
  | c :: rest => (if c = ' ' ∨ c = '\t' ∨ c = '\n' then none else some c) :: letters rest
  | [] => []

/-- The name that has begun, if it has a character. -/
def begun (name : List Char) : List (List Char) :=
  if name = [] then [] else [name]

/-- The names between blanks, of which `name` is the one that has begun. -/
def collect : List Char → List (Option Char) → List (List Char)
  | name, [] => begun name
  | name, none :: rest => begun name ++ collect [] rest
  | name, some c :: rest => collect (name ++ [c]) rest

/-- The names in a text. -/
def readNames (text : String) : List String :=
  (collect [] (letters text.toList)).map String.ofList

variable {c : Char} {cs name rest : List Char} {ls : List (Option Char)} {ws : List (List Char)}

/-! ## Characters -/

/-- The characters that are written behind a backslash. -/
def IsMark (c : Char) : Prop :=
  c = ' ' ∨ c = ':' ∨ c = '#'

/-- Behind a backslash that stands for itself, no mark is written. -/
theorem not_isMark_head_nameChar (c : Char) : ∀ d ∈ (nameChar c ++ rest).head?, ¬ IsMark d := by
  intro d hd
  rw [nameChar] at hd
  split_ifs at hd with hdollar hmark
  · obtain rfl : '$' = d := Option.some.inj hd
    unfold IsMark
    decide
  · obtain rfl : '\\' = d := Option.some.inj hd
    unfold IsMark
    decide
  · obtain rfl : c = d := Option.some.inj hd
    exact hmark

/-- What is written of a character is read as the character, but for tabs and line feeds, and for
    a backslash in front of a mark. -/
theorem letters_nameChar (htab : c ≠ '\t') (hfeed : c ≠ '\n')
    (hrest : c = '\\' → ∀ d ∈ rest.head?, ¬ IsMark d) :
    letters (nameChar c ++ rest) = some c :: letters rest := by
  rw [nameChar]
  split_ifs with hdollar hmark
  · rw [hdollar]
    rfl
  · rcases hmark with rfl | rfl | rfl <;> rfl
  · -- the character stands for itself: it is no dollar sign, and escapes nothing
    have hbehind : ∀ d more, IsMark d → c = '\\' → rest = d :: more → False := by
      rintro d more hd hc rfl
      exact hrest hc d rfl hd
    have hblank : ¬ (c = ' ' ∨ c = '\t' ∨ c = '\n') := by
      rintro (rfl | rfl | rfl)
      · exact hmark (.inl rfl)
      · exact htab rfl
      · exact hfeed rfl
    rw [List.singleton_append, letters, if_neg hblank]
    · exact fun more hc _ => hdollar hc
    · exact fun more => hbehind ' ' more (.inl rfl)
    · exact fun more => hbehind ':' more (.inr (.inl rfl))
    · exact fun more => hbehind '#' more (.inr (.inr rfl))

/-- What is written of a name is read as its characters, unless its last one is a backslash and
    a mark stands behind it. -/
theorem letters_flatMap_nameChar (htab : '\t' ∉ cs) (hfeed : '\n' ∉ cs)
    (hlast : cs.getLast? = some '\\' → ∀ d ∈ rest.head?, ¬ IsMark d) :
    letters (cs.flatMap nameChar ++ rest) = cs.map some ++ letters rest := by
  induction cs with
  | nil => rfl
  | cons c cs ih =>
      rw [List.mem_cons, not_or] at htab hfeed
      have hbehind : c = '\\' → ∀ d ∈ (cs.flatMap nameChar ++ rest).head?, ¬ IsMark d := by
        intro hc
        cases cs with
        | nil => exact hlast (by rw [hc]; rfl)
        | cons e cs =>
            rw [List.flatMap_cons, List.append_assoc]
            exact not_isMark_head_nameChar e
      have hlast' : cs.getLast? = some '\\' → ∀ d ∈ rest.head?, ¬ IsMark d := by
        intro h
        refine hlast ?_
        cases cs with
        | nil => cases h
        | cons e cs => rwa [List.getLast?_cons_cons]
      rw [List.flatMap_cons, List.append_assoc,
        letters_nameChar (Ne.symm htab.1) (Ne.symm hfeed.1) hbehind, ih htab.2 hfeed.2 hlast']
      rfl

/-- A backslash at the end of a name takes the blank behind the name for itself. -/
theorem letters_backslash (htab : '\t' ∉ cs) (hfeed : '\n' ∉ cs) (rest : List Char) :
    letters ((cs ++ ['\\']).flatMap nameChar ++ ' ' :: rest) =
      (cs ++ [' ']).map some ++ letters rest := by
  rw [List.flatMap_append, List.append_assoc, letters_flatMap_nameChar htab hfeed,
    List.map_append, List.append_assoc]
  · rfl
  · intro _ d hd
    obtain rfl : '\\' = d := Option.some.inj hd
    unfold IsMark
    decide

/-- Tabs and line feeds are never read as part of a name. -/
theorem ne_blank_of_mem_letters (h : some c ∈ letters cs) : c ≠ '\t' ∧ c ≠ '\n' := by
  induction cs using letters.induct with
  | case1 rest ih | case2 rest ih | case3 rest ih | case4 rest ih =>
      rw [letters, List.mem_cons] at h
      rcases h with h | h
      · rw [Option.some.inj h]
        decide
      · exact ih h
  | case5 d rest hdollar hblank hcolon hhash ih =>
      rw [letters.eq_5 d rest hdollar hblank hcolon hhash, List.mem_cons] at h
      rcases h with h | h
      · split_ifs at h with hsep
        rw [not_or, not_or] at hsep
        rw [Option.some.inj h]
        exact hsep.2
      · exact ih h
  | case6 => exact absurd h List.not_mem_nil

/-! ## Names between blanks -/

/-- Characters go on the name that has begun. -/
theorem collect_map_some (name cs : List Char) (ls : List (Option Char)) :
    collect name (cs.map some ++ ls) = collect (name ++ cs) ls := by
  induction cs generalizing name with
  | nil => rw [List.append_nil]; rfl
  | cons c cs ih =>
      rw [List.map_cons, List.cons_append, collect, ih, List.append_assoc, List.singleton_append]

theorem begun_of_ne_nil (h : name ≠ []) : begun name = [name] :=
  if_neg h

theorem mem_begun {w : List Char} (h : w ∈ begun name) : w ≠ [] ∧ w = name := by
  rw [begun] at h
  split_ifs at h with hname
  · exact absurd h List.not_mem_nil
  · obtain rfl := List.mem_singleton.1 h
    exact ⟨hname, rfl⟩

/-- A name that has begun is the beginning of the first one that is read. -/
theorem collect_of_ne_nil (h : name ≠ []) (ls : List (Option Char)) :
    ∃ more ws, collect name ls = (name ++ more) :: ws := by
  induction ls generalizing name with
  | nil => exact ⟨[], [], by rw [collect, begun_of_ne_nil h, List.append_nil]⟩
  | cons l ls ih =>
      cases l with
      | none =>
          refine ⟨[], collect [] ls, ?_⟩
          rw [collect, begun_of_ne_nil h, List.append_nil, List.singleton_append]
      | some c =>
          have hne : name ++ [c] ≠ [] := by simp
          obtain ⟨more, ws, heq⟩ := ih hne
          exact ⟨c :: more, ws, by rw [collect, heq, List.append_assoc, List.singleton_append]⟩

/-- Names are not empty, and made of what has been read. -/
theorem mem_collect {w : List Char} (h : w ∈ collect name ls) :
    w ≠ [] ∧ ∀ c ∈ w, c ∈ name ∨ some c ∈ ls := by
  induction ls generalizing name with
  | nil =>
      obtain ⟨hne, rfl⟩ := mem_begun h
      exact ⟨hne, fun c hc => .inl hc⟩
  | cons l ls ih =>
      cases l with
      | none =>
          rcases List.mem_append.1 h with h | h
          · obtain ⟨hne, rfl⟩ := mem_begun h
            exact ⟨hne, fun c hc => .inl hc⟩
          · obtain ⟨hne, hmem⟩ := ih h
            refine ⟨hne, fun c hc => .inr (List.mem_cons_of_mem _ ?_)⟩
            exact (hmem c hc).resolve_left List.not_mem_nil
      | some d =>
          obtain ⟨hne, hmem⟩ := ih h
          refine ⟨hne, fun c hc => ?_⟩
          rcases hmem c hc with hname | hls
          · rcases List.mem_append.1 hname with hname | hd
            · exact .inl hname
            · rw [List.mem_singleton.1 hd]
              exact .inr (List.mem_cons_self ..)
          · exact .inr (List.mem_cons_of_mem _ hls)

/-! ## Lists -/

/-- Names as they are written, with blanks between them. -/
def spelled (ws : List (List Char)) : List Char :=
  [' '].intercalate (ws.map fun w => w.flatMap nameChar)

theorem toList_names (texts : List String) :
    (names texts).toList = spelled (texts.map String.toList) := by
  rw [names, String.toList_intercalate, spelled, List.map_map, List.map_map]
  refine congrArg ([' '].intercalate ·) (List.map_congr_left fun s _ => ?_)
  exact String.toList_ofList

theorem spelled_cons_cons (w v : List Char) (ws : List (List Char)) :
    spelled (w :: v :: ws) = w.flatMap nameChar ++ ' ' :: spelled (v :: ws) := by
  rw [spelled, List.map_cons, List.map_cons, List.intercalate_cons_cons, List.append_assoc]
  rfl

/-- A blank behind a name separates it from the names behind the blank. -/
theorem letters_blank (rest : List Char) : letters (' ' :: rest) = none :: letters rest := by
  rw [letters]
  · rfl
  all_goals exact fun _ h => absurd h (by decide)

/-- Names of plain characters are read back if and only if no backslash at the end of one takes
    the blank that separates it from the next. -/
theorem collect_spelled_iff (h : ∀ w ∈ ws, w ≠ [] ∧ '\t' ∉ w ∧ '\n' ∉ w) :
    collect [] (letters (spelled ws)) = ws ↔ ∀ w ∈ ws.dropLast, w.getLast? ≠ some '\\' := by
  induction ws with
  | nil => exact iff_of_true rfl (List.forall_mem_nil _)
  | cons w ws ih =>
      obtain ⟨⟨hne, htab, hfeed⟩, hws⟩ := List.forall_mem_cons.1 h
      cases ws with
      | nil =>
          have hread : letters (w.flatMap nameChar ++ []) = w.map some ++ letters [] :=
            letters_flatMap_nameChar htab hfeed fun _ => nofun
          rw [List.append_nil, letters, List.append_nil] at hread
          have hcollect := collect_map_some [] w []
          rw [List.append_nil, List.nil_append, collect, begun_of_ne_nil hne] at hcollect
          refine iff_of_true ?_ (List.forall_mem_nil _)
          rw [spelled, List.map_singleton, List.intercalate_singleton, hread, hcollect]
      | cons v ws =>
          rw [spelled_cons_cons, List.dropLast_cons_cons, List.forall_mem_cons, ← ih hws]
          by_cases hlast : w.getLast? = some '\\'
          · -- the backslash takes the blank, so the first name that is read goes on behind it
            refine iff_of_false (fun heq => ?_) fun hall => hall.1 hlast
            obtain ⟨front, rfl⟩ := List.getLast?_eq_some_iff.1 hlast
            rw [List.mem_append, not_or] at htab hfeed
            rw [letters_backslash htab.1 hfeed.1, collect_map_some, List.nil_append] at heq
            have hbegun : front ++ [' '] ≠ [] := by simp
            obtain ⟨more, names, hfirst⟩ := collect_of_ne_nil hbegun (letters (spelled (v :: ws)))
            rw [hfirst] at heq
            have hsame := (List.cons.inj heq).1
            rw [List.append_assoc, List.append_cancel_left_eq] at hsame
            exact absurd (List.cons.inj hsame).1 (by decide)
          · rw [letters_flatMap_nameChar htab hfeed fun h => absurd h hlast, letters_blank,
              collect_map_some, List.nil_append, collect, begun_of_ne_nil hne,
              List.singleton_append]
            constructor
            · exact fun heq => ⟨hlast, (List.cons.inj heq).2⟩
            · exact fun hall => congrArg (w :: ·) hall.2

/-- What is read in a text are names without tabs and line feeds. -/
theorem plain_of_mem_readNames {text s : String} (h : s ∈ readNames text) :
    s ≠ "" ∧ '\t' ∉ s.toList ∧ '\n' ∉ s.toList := by
  obtain ⟨w, hw, rfl⟩ := List.mem_map.1 h
  obtain ⟨hne, hmem⟩ := mem_collect hw
  have hplain : ∀ c ∈ w, c ≠ '\t' ∧ c ≠ '\n' := fun c hc =>
    ne_blank_of_mem_letters ((hmem c hc).resolve_left List.not_mem_nil)
  rw [Ne, ← String.toList_eq_nil_iff, String.toList_ofList]
  exact ⟨hne, fun htab => (hplain _ htab).1 rfl, fun hfeed => (hplain _ hfeed).2 rfl⟩

/-- Names are read back as texts if they are read back as lists of characters. -/
theorem readNames_names_iff {texts : List String} : readNames (names texts) = texts ↔
    collect [] (letters (spelled (texts.map String.toList))) = texts.map String.toList := by
  rw [readNames, toList_names]
  constructor
  · intro h
    have hlists := congrArg (List.map String.toList) h
    rw [List.map_map] at hlists
    exact ((List.map_congr_left fun w _ => String.toList_ofList).trans
      (List.map_id _)).symm.trans hlists
  · intro h
    rw [h, List.map_map]
    exact (List.map_congr_left fun s _ => String.ofList_toList).trans (List.map_id _)

/-- **Which lists of names are read back.** A list of names is read back from its text if and only
    if no name is empty, no name has a tab or a line feed, and no name but the last one ends in a
    backslash. -/
theorem names_read_back_iff (texts : List String) : readNames (names texts) = texts ↔
    (∀ s ∈ texts, s ≠ "" ∧ '\t' ∉ s.toList ∧ '\n' ∉ s.toList) ∧
      ∀ s ∈ texts.dropLast, s.toList.getLast? ≠ some '\\' := by
  have hiff : (∀ s ∈ texts, s ≠ "" ∧ '\t' ∉ s.toList ∧ '\n' ∉ s.toList) →
      (readNames (names texts) = texts ↔
        ∀ s ∈ texts.dropLast, s.toList.getLast? ≠ some '\\') := by
    intro hplain
    have hplain' : ∀ w ∈ texts.map String.toList, w ≠ [] ∧ '\t' ∉ w ∧ '\n' ∉ w := by
      refine List.forall_mem_map.2 fun s hs => ?_
      rw [Ne, String.toList_eq_nil_iff]
      exact hplain s hs
    rw [readNames_names_iff, collect_spelled_iff hplain', ← List.map_dropLast, List.forall_mem_map]
  constructor
  · intro h
    have hplain : ∀ s ∈ texts, s ≠ "" ∧ '\t' ∉ s.toList ∧ '\n' ∉ s.toList := fun s hs =>
      plain_of_mem_readNames (h ▸ hs)
    exact ⟨hplain, (hiff hplain).1 h⟩
  · exact fun h => (hiff h.1).2 h.2

example : readNames (names ["a\\", "b c"]) = ["a b c"] := by decide +kernel

end Buildwright.Make
