import Buildwright.Proofs.Make.Lines

/-! # Recipes, word by word

    The words of a command are read twice: make takes two dollar signs for one, and a
    shell then splits what it is given.  The chunks of a written word are each read under
    one way of quoting, which takes every character of the chunk for itself, so the words
    that are read are the words that were written, and nothing else happens on the way.

    * `Shell.split` — the words that a shell reads, or what it does instead;
    * `Shell.Chunk.Sound`, `Shell.read_written` — a chunk is read as its text;
    * `Shell.read_quote` — a written word is read as the word;
    * `Make.passOn`, `Make.words_read_back` — what make passes on, and what becomes of it. -/

namespace Buildwright

namespace Shell

/-! ## How a shell reads -/

/-- What a text can hold besides words. -/
inductive Special where
  /-- A parameter is expanded, or a command or a sum is put in. -/
  | expansion
  /-- A command between backquotes is put in. -/
  | substitution
  | comment
  /-- The command ends, or is joined with another one or with a file. -/
  | operator
  /-- The names of files that match are put in. -/
  | pattern
  /-- The home directory is put in. -/
  | home
  /-- A quote or an escape is not ended. -/
  | unended
deriving DecidableEq, Repr

/-- Where a shell is in a text. -/
inductive Mode where
  | outside
  /-- Behind a backslash that stands outside quotes. -/
  | escaped
  | single
  | double
  /-- Behind a backslash between double quotes. -/
  | doubleEscaped
deriving DecidableEq, Repr

/-- What a character does that is not quoted; some do it only where a word begins. -/
def special? (word : Option (List Char)) (c : Char) : Option Special :=
  if c = '$' then some .expansion
  else if c.toNat = 0x60 then some .substitution
  else if c = '#' ∧ word = none then some .comment
  else if c = '~' ∧ word = none then some .home
  else if c ∈ ['|', '&', ';', '<', '>', '(', ')', '\n'] then some .operator
  else if c ∈ ['*', '?', '['] then some .pattern
  else none

/-- A word with one more character. -/
def extend (word : Option (List Char)) (c : Char) : Option (List Char) :=
  some (word.getD [] ++ [c])

/-- Read words, of which `word` is the one that has begun. -/
def read : Mode → Option (List Char) → List Char → Except Special (List (List Char))
  | .outside, word, [] => .ok word.toList
  | _, _, [] => .error .unended
  | .outside, word, c :: rest =>
    if c = ' ' ∨ c = '\t' then (word.toList ++ ·) <$> read .outside none rest
    else if c = '\'' then read .single (some (word.getD [])) rest
    else if c = '"' then read .double (some (word.getD [])) rest
    else if c = '\\' then read .escaped word rest
    else
      match special? word c with
      | some special => .error special
      | none => read .outside (extend word c) rest
  | .escaped, word, c :: rest =>
    -- a line that ends in a backslash goes on
    if c = '\n' then read .outside word rest else read .outside (extend word c) rest
  | .single, word, c :: rest =>
    if c = '\'' then read .outside word rest else read .single (extend word c) rest
  | .double, word, c :: rest =>
    if c = '"' then read .outside word rest
    else if c = '\\' then read .doubleEscaped word rest
    else if c = '$' then .error .expansion
    else if c.toNat = 0x60 then .error .substitution
    else read .double (extend word c) rest
  | .doubleEscaped, word, c :: rest =>
    if c = '\n' then read .double word rest
    else if c = '"' ∨ c = '\\' ∨ c = '$' ∨ c.toNat = 0x60 then read .double (extend word c) rest
    else read .double (extend (extend word '\\') c) rest

/-- The words of a text, if it holds nothing else. -/
def split (text : List Char) : Except Special (List (List Char)) :=
  read .outside none text

variable {c : Char} {cs text rest : List Char} {word : Option (List Char)}

theorem extend_getD (word : Option (List Char)) (c : Char) (cs : List Char) :
    some ((extend word c).getD [] ++ cs) = some (word.getD [] ++ c :: cs) := by
  rw [extend, Option.getD_some, List.append_assoc]
  rfl

/-! ## Characters under a way of quoting -/

theorem ne_of_isBare {d : Char} (h : isBare c = true) (hd : isBare d = false) : c ≠ d := by
  rintro rfl
  rw [h] at hd
  cases hd

theorem toNat_ne_of_isBare (h : isBare c = true) : c.toNat ≠ 0x60 := by
  intro hc
  have hbackquote : c = Char.ofNat 0x60 := by rw [← hc, Char.ofNat_toNat]
  exact ne_of_isBare h (by decide) hbackquote

theorem notMem_of_isBare {ds : List Char} (h : isBare c = true)
    (hds : (ds.all fun d => !isBare d) = true) : c ∉ ds := by
  intro hmem
  have hbare := List.all_eq_true.1 hds c hmem
  rw [h] at hbare
  cases hbare

/-- A bare character is read as itself, also where a word begins. -/
theorem read_bare (h : ∀ c ∈ cs, isBare c = true) (hne : cs ≠ []) :
    read .outside word (cs ++ rest) = read .outside (some (word.getD [] ++ cs)) rest := by
  have hone : ∀ c, isBare c = true → ∀ word more,
      read .outside word (c :: more) = read .outside (extend word c) more := by
    intro c hc word more
    have hne : ∀ d, isBare d = false → c ≠ d := fun _ => ne_of_isBare hc
    have hspecial : special? word c = none := by
      rw [special?, if_neg (hne _ (by decide)), if_neg (toNat_ne_of_isBare hc),
        if_neg fun h => hne _ (by decide) h.1, if_neg fun h => hne _ (by decide) h.1, if_neg,
        if_neg]
      · exact notMem_of_isBare hc (by decide)
      · exact notMem_of_isBare hc (by decide)
    rw [read, if_neg, if_neg (hne _ (by decide)), if_neg (hne _ (by decide)),
      if_neg (hne _ (by decide)), hspecial]
    rintro (hblank | hblank)
    · exact hne _ (by decide) hblank
    · exact hne _ (by decide) hblank
  induction cs generalizing word with
  | nil => exact absurd rfl hne
  | cons c cs ih =>
      obtain ⟨hc, hcs⟩ := List.forall_mem_cons.1 h
      rw [List.cons_append, hone c hc]
      by_cases hnil : cs = []
      · rw [hnil]
        rfl
      · rw [ih hcs hnil, extend_getD]

/-- Between single quotes only the quote ends what is read. -/
theorem read_single (h : '\'' ∉ cs) : read .single word (cs ++ '\'' :: rest) =
    read .outside (if cs = [] then word else some (word.getD [] ++ cs)) rest := by
  induction cs generalizing word with
  | nil => rw [List.nil_append, read, if_pos rfl, if_pos rfl]
  | cons c cs ih =>
      rw [List.mem_cons, not_or] at h
      rw [List.cons_append, read, if_neg (Ne.symm h.1), ih h.2, if_neg (List.cons_ne_nil c cs)]
      split_ifs with hnil
      · rw [hnil]
        rfl
      · rw [extend_getD]

/-- Between double quotes an escaped character is read as itself, and so is any other that
    begins nothing. -/
theorem read_double (h : ∀ c ∈ cs, c ≠ '$' ∧ c.toNat ≠ 0x60) :
    read .double word (cs.flatMap inDouble ++ '"' :: rest) =
      read .outside (if cs = [] then word else some (word.getD [] ++ cs)) rest := by
  have hone : ∀ c, c ≠ '$' → c.toNat ≠ 0x60 → ∀ word more,
      read .double word (inDouble c ++ more) = read .double (extend word c) more := by
    intro c hdollar hbackquote word more
    rw [inDouble]
    by_cases hmark : c = '"' ∨ c = '\\' ∨ c = '$' ∨ c.toNat = 0x60
    · have hfeed : c ≠ '\n' := by
        rintro rfl
        revert hmark
        decide
      have hescape : read .double word ('\\' :: c :: more) =
          read .doubleEscaped word (c :: more) := by
        rw [read, if_neg (by decide), if_pos rfl]
      rw [if_pos hmark, List.cons_append, List.cons_append, List.nil_append, hescape, read,
        if_neg hfeed, if_pos hmark]
    · rw [if_neg hmark, List.cons_append, List.nil_append]
      rw [not_or, not_or] at hmark
      rw [read, if_neg hmark.1, if_neg hmark.2.1, if_neg hdollar, if_neg hbackquote]
  induction cs generalizing word with
  | nil => rw [List.flatMap_nil, List.nil_append, read, if_pos rfl, if_pos rfl]
  | cons c cs ih =>
      obtain ⟨⟨hdollar, hbackquote⟩, hcs⟩ := List.forall_mem_cons.1 h
      rw [List.flatMap_cons, List.append_assoc, hone c hdollar hbackquote, ih hcs,
        if_neg (List.cons_ne_nil c cs)]
      split_ifs with hnil
      · rw [hnil]
        rfl
      · rw [extend_getD]

/-! ## Chunks of a word -/

/-- Whether a chunk can be quoted, in no other ways than its characters can. -/
structure Chunk.Sound (chunk : Chunk) : Prop where
  nonempty : chunk.text ≠ []
  any : chunk.ways.any = true
  bare : chunk.ways.bare = true → ∀ c ∈ chunk.text, isBare c = true
  single : chunk.ways.single = true → '\'' ∉ chunk.text
  double : chunk.ways.double = true → ∀ c ∈ chunk.text, c ≠ '$' ∧ c.toNat ≠ 0x60

/-- A single quote goes between double quotes, and all other characters but a caret go between
    single ones; the caret does where it begins a chunk. -/
theorem any_waysOfFirst (c : Char) : (waysOfFirst c).any = true := by
  rw [waysOfFirst]
  split_ifs with hcaret
  · rfl
  · by_cases hsingle : (waysOf c).single = true
    · rw [Ways.any, hsingle, Bool.or_true, Bool.true_or]
    · have hmark : c = '\'' ∨ c = '\\' := by
        simpa [waysOf, hcaret, or_iff_not_imp_left] using hsingle
      rcases hmark with rfl | rfl <;> decide

/-- One character is a sound chunk. -/
theorem sound_first (c : Char) : Chunk.Sound ⟨waysOfFirst c, [c]⟩ where
  nonempty := List.cons_ne_nil c []
  any := any_waysOfFirst c
  bare := by
    intro hbare d hd
    rw [List.mem_singleton.1 hd]
    by_cases hcaret : c = '^'
    · simp [waysOfFirst, hcaret] at hbare
    · simpa [waysOfFirst, hcaret, waysOf] using hbare
  single := by
    intro hsingle hmem
    rw [← List.mem_singleton.1 hmem] at hsingle
    revert hsingle
    decide
  double := by
    intro hdouble d hd
    rw [List.mem_singleton.1 hd]
    by_cases hcaret : c = '^'
    · simp [waysOfFirst, hcaret] at hdouble
    · have hways : (waysOf c).double = true := by simpa [waysOfFirst, hcaret] using hdouble
      simp only [waysOf, Bool.and_eq_true, decide_eq_true_eq] at hways
      exact ⟨hways.1.1.2, hways.1.1.1⟩

/-- A chunk with one more character keeps the ways that both have. -/
theorem Chunk.Sound.concat {chunk : Chunk} (h : chunk.Sound)
    (hany : (chunk.ways.and (waysOf c)).any = true) :
    Chunk.Sound ⟨chunk.ways.and (waysOf c), chunk.text ++ [c]⟩ where
  nonempty := by simp
  any := hany
  bare := by
    intro hbare
    rw [Ways.and, Bool.and_eq_true] at hbare
    exact List.forall_mem_append.2 ⟨h.bare hbare.1, List.forall_mem_singleton.2 hbare.2⟩
  single := by
    intro hsingle
    rw [Ways.and, Bool.and_eq_true] at hsingle
    rw [List.mem_append, not_or, List.mem_singleton]
    refine ⟨h.single hsingle.1, ?_⟩
    rintro rfl
    exact absurd hsingle.2 (by decide)
  double := by
    intro hdouble
    rw [Ways.and, Bool.and_eq_true] at hdouble
    refine List.forall_mem_append.2 ⟨h.double hdouble.1, List.forall_mem_singleton.2 ?_⟩
    have hways := hdouble.2
    simp only [waysOf, Bool.and_eq_true, decide_eq_true_eq] at hways
    exact ⟨hways.1.1.2, hways.1.1.1⟩

/-- The cut makes sound chunks. -/
theorem sound_chunksFrom {current : Chunk} (h : current.Sound) (cs : List Char) :
    ∀ chunk ∈ chunksFrom current cs, chunk.Sound := by
  induction cs generalizing current with
  | nil => exact List.forall_mem_singleton.2 h
  | cons c rest ih =>
      rw [chunksFrom]
      split_ifs with hany
      · exact ih (h.concat hany)
      · exact List.forall_mem_cons.2 ⟨h, ih (sound_first c)⟩

theorem sound_chunks (cs : List Char) : ∀ chunk ∈ chunks cs, chunk.Sound := by
  cases cs with
  | nil => exact fun _ h => absurd h List.not_mem_nil
  | cons c rest => exact sound_chunksFrom (sound_first c) rest

/-! ## Written words -/

/-- A written chunk is read as its text. -/
theorem read_written {chunk : Chunk} (h : chunk.Sound) (word : Option (List Char))
    (rest : List Char) : read .outside word (chunk.written ++ rest) =
      read .outside (some (word.getD [] ++ chunk.text)) rest := by
  -- a quote begins a word, if none has begun
  have hword : some ((some (word.getD [])).getD [] ++ chunk.text) =
      some (word.getD [] ++ chunk.text) := rfl
  rw [Chunk.written]
  split_ifs with hbare hsingle
  · exact read_bare (h.bare hbare) h.nonempty
  · rw [List.append_assoc, List.cons_append, List.singleton_append, read, if_neg (by decide),
      if_pos rfl, read_single (h.single hsingle), if_neg h.nonempty, hword]
  · have hdouble : chunk.ways.double = true := by
      have hany := h.any
      rw [Ways.any, Bool.or_eq_true, Bool.or_eq_true] at hany
      exact hany.resolve_left (not_or.2 ⟨hbare, hsingle⟩)
    rw [List.append_assoc, List.cons_append, List.singleton_append, read, if_neg (by decide),
      if_neg (by decide), if_pos rfl, read_double (h.double hdouble), if_neg h.nonempty, hword]

/-- Written chunks are read one after the other. -/
theorem read_flatMap_written {cut : List Chunk} (h : ∀ chunk ∈ cut, chunk.Sound) (hne : cut ≠ [])
    (word : Option (List Char)) (rest : List Char) :
    read .outside word (cut.flatMap Chunk.written ++ rest) =
      read .outside (some (word.getD [] ++ cut.flatMap Chunk.text)) rest := by
  induction cut generalizing word with
  | nil => exact absurd rfl hne
  | cons chunk cut ih =>
      obtain ⟨hchunk, hcut⟩ := List.forall_mem_cons.1 h
      rw [List.flatMap_cons, List.flatMap_cons, List.append_assoc, read_written hchunk]
      by_cases hnil : cut = []
      · rw [hnil, List.flatMap_nil, List.flatMap_nil, List.append_nil]
        rfl
      · rw [ih hcut hnil, Option.getD_some, List.append_assoc]

/-- A written word is read as the word, the empty one too. -/
theorem read_quote (h : '\x00' ∉ text) (rest : List Char) :
    read .outside none (quote text ++ rest) = read .outside (some text) rest := by
  have hzero : text.contains '\x00' = false := by simpa using h
  rw [quote, hzero, if_neg Bool.false_ne_true]
  split_ifs with hempty
  · subst hempty
    rfl
  · have hne : chunks text ≠ [] := by
      intro hnil
      have htext := Make.flatMap_chunks text
      rw [hnil, List.flatMap_nil] at htext
      exact hempty htext.symm
    rw [read_flatMap_written (sound_chunks text) hne, Make.flatMap_chunks]
    rfl

/-- Written words with blanks between them are read as the words. -/
theorem split_intercalate_quote {texts : List (List Char)} (h : ∀ text ∈ texts, '\x00' ∉ text) :
    split ([' '].intercalate (texts.map quote)) = .ok texts := by
  rw [split]
  induction texts with
  | nil => rfl
  | cons text texts ih =>
      obtain ⟨htext, htexts⟩ := List.forall_mem_cons.1 h
      cases texts with
      | nil =>
          have hread := read_quote htext []
          rw [List.append_nil] at hread
          rw [List.map_singleton, List.intercalate_singleton, hread]
          rfl
      | cons next texts =>
          rw [List.map_cons, List.map_cons, List.intercalate_cons_cons, List.append_assoc,
            read_quote htext, List.singleton_append, read, if_pos (.inl rfl), ← List.map_cons,
            ih htexts]
          rfl

end Shell

namespace Make

/-! ## What make passes on -/

/-- What a shell is given of a recipe: two dollar signs are one.  A single one begins the name
    of a variable, and there is nothing to be said of what make puts in its place. -/
def passOn : List Char → Option (List Char)
  | [] => some []
  | '$' :: '$' :: rest => (passOn rest).map ('$' :: ·)
  | c :: rest => if c = '$' then none else (passOn rest).map (c :: ·)

/-- Doubled dollar signs are passed on as they were. -/
theorem passOn_doubleDollars (cs : List Char) : passOn (doubleDollars cs) = some cs := by
  induction cs with
  | nil => rfl
  | cons c cs ih =>
      rw [doubleDollars, Text.replaceChar, List.flatMap_cons, ← Text.replaceChar, ← doubleDollars]
      split_ifs with hdollar
      · subst hdollar
        rw [List.cons_append, List.singleton_append, passOn, ih]
        rfl
      · rw [List.singleton_append, passOn, if_neg hdollar, ih]
        · rfl
        · exact fun _ heq => absurd heq hdollar

/-- Dollar signs are doubled in each of some texts and in what stands between them. -/
theorem doubleDollars_intercalate (sep : List Char) (texts : List (List Char)) :
    doubleDollars (sep.intercalate texts) =
      (doubleDollars sep).intercalate (texts.map doubleDollars) := by
  induction texts with
  | nil => rfl
  | cons text texts ih =>
      cases texts with
      | nil => rw [List.intercalate_singleton, List.map_singleton, List.intercalate_singleton]
      | cons next texts =>
          rw [List.intercalate_cons_cons, List.map_cons, List.map_cons, List.intercalate_cons_cons,
            ← List.map_cons, ← ih, doubleDollars, doubleDollars, doubleDollars, doubleDollars,
            Text.replaceChar_append, Text.replaceChar_append]

/-- A command is its words as a shell reads them, with the dollar signs doubled. -/
theorem toList_line (words : List String) : (line words).toList =
    doubleDollars ([' '].intercalate ((words.map String.toList).map Shell.quote)) := by
  have hwords : (words.map word).map String.toList =
      ((words.map String.toList).map Shell.quote).map doubleDollars := by
    rw [List.map_map, List.map_map, List.map_map]
    exact List.map_congr_left fun w _ => String.toList_ofList
  rw [line, String.toList_intercalate, hwords, doubleDollars_intercalate]
  rfl

/-- **Recipe words survive make and the shell.** Make finds no variable in a command, and the
    shell that it passes the command on to reads exactly the words, with nothing expanded or
    put in and no comment. -/
theorem words_read_back {words : List String} (h : ∀ w ∈ words, '\x00' ∉ w.toList) :
    ∃ text, passOn (line words).toList = some text ∧
      Shell.split text = .ok (words.map String.toList) := by
  refine ⟨_, by rw [toList_line, passOn_doubleDollars], ?_⟩
  refine Shell.split_intercalate_quote fun text htext => ?_
  obtain ⟨w, hw, rfl⟩ := List.mem_map.1 htext
  exact h w hw

/-- Words that take all ways of quoting, one of them in one word. -/
def mixedWords : List String :=
  ["c++", "", "it's $HOME", "a^\\b \"c\"", "é # `ls`\n"]

/-- Words with quotes, dollar signs, backslashes and carets are read back, and so is the empty
    one. -/
theorem mixedWords_read_back : (∀ w ∈ mixedWords, '\x00' ∉ w.toList) ∧
    ∃ text, passOn (line mixedWords).toList = some text ∧
      Shell.split text = .ok (mixedWords.map String.toList) := by
  have hzero : ∀ w ∈ mixedWords, '\x00' ∉ w.toList := by decide
  exact ⟨hzero, words_read_back hzero⟩

end Make

end Buildwright
