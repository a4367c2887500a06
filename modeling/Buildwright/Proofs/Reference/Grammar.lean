import Buildwright.Reference
import Mathlib.Data.List.Basic
import Mathlib.Data.String.Basic

/-! # The grammar of references

    A text is a reference if it has a mark of position or none, then a package
    path, a colon that no backslash precedes, a rule, and at most one version
    behind a first `@`.  Each part is described here by what stands where in the
    text, and the scanners of `Reference.read` find exactly these parts.

    * `Marked`, `Separated`, `Versioned`, `Trimmed` — the parts of a text;
    * `Parts`, `Spells` — texts that are references, and of which;
    * `parse_iff_grammar` — the reader accepts these texts and no others. -/

namespace Buildwright.Reference

variable {cs before after dir : List Char} {position : Position}

/-! ## The parts of a text -/

/-- Where the package is looked up, by what a text begins with, and the text that is left.  The
    colon of a reference into the declaring package is left. -/
inductive Marked : List Char → Position → List Char → Prop where
  | absolute (rest : List Char) : Marked ('/' :: '/' :: rest) .absolute rest
  | builtin (rest : List Char) : Marked ('#' :: '#' :: rest) .builtin rest
  | this (rest : List Char) : Marked (':' :: rest) .this (':' :: rest)
  | relative {cs : List Char} (habsolute : ¬ ['/', '/'] <+: cs) (hbuiltin : ¬ ['#', '#'] <+: cs)
      (hthis : ¬ [':'] <+: cs) : Marked cs .relative cs

/-- Whether a text is cut at its first colon that no backslash directly precedes. -/
structure Separated (cs before after : List Char) : Prop where
  text : cs = before ++ ':' :: after
  unescaped : before.getLast? ≠ some '\\'
  /-- Every colon before that one has a backslash. -/
  first : ∀ u v, before = u ++ ':' :: v → u.getLast? = some '\\'

/-- Whether a text is cut at its first `@`, if it has one. -/
inductive Versioned : List Char → List Char → Option (List Char) → Prop where
  | bare {rule : List Char} (h : '@' ∉ rule) : Versioned rule rule none
  | version {rule : List Char} (version : List Char) (h : '@' ∉ rule) :
      Versioned (rule ++ '@' :: version) rule (some version)

/-- A text with a colon in place of every backslash and colon. -/
def unescape : List Char → List Char
  | [] => []
  | '\\' :: ':' :: rest => ':' :: unescape rest
  | c :: rest => c :: unescape rest

/-- What is left of a package path without the name of a declaration file at its end. -/
inductive Trimmed : List Char → List Char → Prop where
  | whole : Trimmed ['B', 'U', 'I', 'L', 'D'] []
  | file (dir : List Char) : Trimmed (dir ++ ['/', 'B', 'U', 'I', 'L', 'D']) dir
  | bare {dir : List Char} (hwhole : dir ≠ ['B', 'U', 'I', 'L', 'D'])
      (hfile : ¬ ['/', 'B', 'U', 'I', 'L', 'D'] <:+ dir) : Trimmed dir dir

/-- The parts of a text that is a reference: the package as it is written, the rule and the
    version. -/
inductive Parts (cs : List Char) (position : Position) (before rule : List Char)
    (version : Option (List Char)) : Prop where
  | intro {rest after : List Char} (hmark : Marked cs position rest)
      (hseparator : Separated rest before after) (hversion : Versioned after rule version)
      (hrule : rule ≠ []) (hversion' : version ≠ some [])

/-- Whether a reference is the one that a text spells.  A reference into the declaring package
    has no package of its own. -/
inductive Spells (cs : List Char) (r : Reference) : Prop where
  | intro {before rule dir : List Char} {version : Option (List Char)}
      (hparts : Parts cs r.position before rule version) (htrim : Trimmed (unescape before) dir)
      (hpackage : r.package = if r.position = .this then none else some (String.ofList dir))
      (hrule : r.rule = String.ofList rule) (hversion : r.version = version.map String.ofList)

/-! ## What the scanners find -/

theorem marked_splitPosition (cs : List Char) :
    Marked cs (splitPosition cs).1 (splitPosition cs).2 := by
  fun_cases splitPosition cs with
  | case1 rest => exact .absolute rest
  | case2 rest => exact .builtin rest
  | case3 rest => exact .this rest
  | case4 _ habsolute hbuiltin hthis =>
      refine .relative ?_ ?_ ?_
      · rintro ⟨rest, rfl⟩
        exact habsolute rest rfl
      · rintro ⟨rest, rfl⟩
        exact hbuiltin rest rfl
      · rintro ⟨rest, rfl⟩
        exact hthis rest rfl

/-- A text has one position. -/
theorem marked_iff {rest : List Char} :
    Marked cs position rest ↔ splitPosition cs = (position, rest) := by
  constructor
  · intro h
    cases h with
    | absolute => rfl
    | builtin => rfl
    | this => rfl
    | relative habsolute hbuiltin hthis =>
        fun_cases splitPosition cs with
        | case1 rest => exact absurd ⟨rest, rfl⟩ habsolute
        | case2 rest => exact absurd ⟨rest, rfl⟩ hbuiltin
        | case3 rest => exact absurd ⟨rest, rfl⟩ hthis
        | case4 => rfl
  · intro h
    have hmark := marked_splitPosition cs
    rwa [h] at hmark

/-- A colon at the front separates. -/
theorem separated_colon_iff : Separated (':' :: cs) before after ↔ before = [] ∧ after = cs := by
  constructor
  · intro h
    cases before with
    | nil => exact ⟨rfl, (List.cons.inj h.text).2.symm⟩
    | cons c before =>
        obtain ⟨rfl, -⟩ := List.cons.inj h.text
        exact absurd (h.first [] before rfl) nofun
  · rintro ⟨rfl, rfl⟩
    exact ⟨rfl, nofun, fun u v h => by simp at h⟩

/-- A backslash and a colon at the front belong to the package. -/
theorem separated_escape_iff : Separated ('\\' :: ':' :: cs) before after ↔
    ∃ front, before = '\\' :: ':' :: front ∧ Separated cs front after := by
  constructor
  · rintro ⟨htext, hunescaped, hfirst⟩
    match before with
    | [] => exact absurd (List.cons.inj htext).1 (by decide)
    | [c] =>
        obtain ⟨rfl, -⟩ := List.cons.inj htext
        exact absurd rfl hunescaped
    | c :: c' :: front =>
        obtain ⟨hc, htext⟩ := List.cons.inj htext
        obtain ⟨hc', rfl⟩ := List.cons.inj htext
        subst hc hc'
        refine ⟨front, rfl, rfl, fun hlast => hunescaped ?_, fun u v h => ?_⟩
        · rw [List.getLast?_cons_cons, List.getLast?_cons, hlast]
          rfl
        · have hlast := hfirst ('\\' :: ':' :: u) v (by rw [h]; rfl)
          cases u with
          | nil => exact absurd hlast (by decide)
          | cons => rwa [List.getLast?_cons_cons, List.getLast?_cons_cons] at hlast
  · rintro ⟨front, rfl, htext, hunescaped, hfirst⟩
    refine ⟨by rw [htext]; rfl, ?_, fun u v h => ?_⟩
    · cases front with
      | nil => decide
      | cons => rwa [List.getLast?_cons_cons, List.getLast?_cons_cons]
    · match u with
      | [] => exact absurd (List.cons.inj h).1 (by decide)
      | [c] =>
          obtain ⟨rfl, -⟩ := List.cons.inj h
          rfl
      | c :: c' :: u =>
          have hlast := hfirst u v (List.cons.inj (List.cons.inj h).2).2
          rw [List.getLast?_cons_cons, List.getLast?_cons, hlast]
          rfl

/-- Another character at the front belongs to the package. -/
theorem separated_cons_iff {c : Char} (hc : c ≠ ':') (hescape : c = '\\' → ¬ [':'] <+: cs) :
    Separated (c :: cs) before after ↔ ∃ front, before = c :: front ∧ Separated cs front after := by
  constructor
  · rintro ⟨htext, hunescaped, hfirst⟩
    cases before with
    | nil => exact absurd (List.cons.inj htext).1 hc
    | cons c' front =>
        obtain ⟨rfl, rfl⟩ := List.cons.inj htext
        refine ⟨front, rfl, rfl, fun hlast => hunescaped ?_, fun u v h => ?_⟩
        · rw [List.getLast?_cons, hlast]
          rfl
        · have hlast := hfirst (c :: u) v (by rw [h]; rfl)
          cases u with
          | nil =>
              rw [h] at hescape
              exact absurd ⟨_, rfl⟩ (hescape (Option.some.inj hlast))
          | cons => rwa [List.getLast?_cons_cons] at hlast
  · rintro ⟨front, rfl, rfl, hunescaped, hfirst⟩
    refine ⟨rfl, ?_, fun u v h => ?_⟩
    · cases front with
      | nil =>
          intro hlast
          exact hescape (Option.some.inj hlast) ⟨_, rfl⟩
      | cons => rwa [List.getLast?_cons_cons]
    · cases u with
      | nil => exact absurd (List.cons.inj h).1 hc
      | cons c' u =>
          have hlast := hfirst u v (List.cons.inj h).2
          rw [List.getLast?_cons, hlast]
          rfl

theorem unescape_cons {c : Char} (hescape : c = '\\' → ¬ [':'] <+: cs) :
    unescape (c :: cs) = c :: unescape cs := by
  rw [unescape]
  rintro rest rfl rfl
  exact hescape rfl ⟨rest, rfl⟩

/-- The scanner cuts a text where its first separator is, and takes the backslashes before the
    colons out of the package. -/
theorem splitPackage?_eq_some_iff {package : List Char} :
    splitPackage? cs = some (package, after) ↔
      ∃ before, Separated cs before after ∧ unescape before = package := by
  fun_induction splitPackage? cs generalizing package after with
  | case1 =>
      constructor
      · nofun
      · rintro ⟨before, h, -⟩
        have htext := h.text
        simp at htext
  | case2 rest ih =>
      simp only [separated_escape_iff, Option.map_eq_some_iff, Prod.exists, Prod.mk.injEq, ih]
      constructor
      · rintro ⟨package, _, ⟨front, h, rfl⟩, rfl, rfl⟩
        exact ⟨_, ⟨front, rfl, h⟩, rfl⟩
      · rintro ⟨before, ⟨front, rfl, h⟩, rfl⟩
        exact ⟨_, _, ⟨front, h, rfl⟩, rfl, rfl⟩
  | case3 rest =>
      simp only [separated_colon_iff, Option.some_inj, Prod.mk.injEq]
      constructor
      · rintro ⟨rfl, rfl⟩
        exact ⟨[], ⟨rfl, rfl⟩, rfl⟩
      · rintro ⟨before, ⟨rfl, rfl⟩, rfl⟩
        exact ⟨rfl, rfl⟩
  | case4 c rest hescape hcolon ih =>
      have hc : c ≠ ':' := fun h => hcolon h
      have hescape' : c = '\\' → ¬ [':'] <+: rest := by
        rintro rfl ⟨t, rfl⟩
        exact hescape t rfl rfl
      simp only [separated_cons_iff hc hescape', Option.map_eq_some_iff, Prod.exists,
        Prod.mk.injEq, ih]
      have hfront : ∀ front, Separated rest front after →
          unescape (c :: front) = c :: unescape front := by
        refine fun front h => unescape_cons fun hback hfront => hescape' hback ?_
        rw [h.text]
        exact hfront.trans (List.prefix_append ..)
      constructor
      · rintro ⟨package, _, ⟨front, h, rfl⟩, rfl, rfl⟩
        exact ⟨_, ⟨front, rfl, h⟩, hfront front h⟩
      · rintro ⟨before, ⟨front, rfl, h⟩, rfl⟩
        exact ⟨_, _, ⟨front, h, rfl⟩, (hfront front h).symm, rfl⟩

theorem versioned_splitVersion (cs : List Char) :
    Versioned cs (splitVersion cs).1 (splitVersion cs).2 := by
  fun_induction splitVersion cs with
  | case1 => exact .bare List.not_mem_nil
  | case2 rest =>
      have hrule : '@' ∉ ([] : List Char) := List.not_mem_nil
      exact .version rest hrule
  | case3 c rest hc ih =>
      have hcons : ∀ rule : List Char, '@' ∉ rule → '@' ∉ c :: rule := fun rule h =>
        List.not_mem_cons_of_ne_of_not_mem (fun heq => hc heq.symm) h
      generalize (splitVersion rest).1 = rule, (splitVersion rest).2 = version at ih ⊢
      cases ih with
      | bare h => exact .bare (hcons _ h)
      | version version h => exact .version version (hcons _ h)

/-- What has no `@` belongs to the rule. -/
theorem splitVersion_append {rule : List Char} (h : '@' ∉ rule) (rest : List Char) :
    splitVersion (rule ++ rest) = (rule ++ (splitVersion rest).1, (splitVersion rest).2) := by
  induction rule with
  | nil => rfl
  | cons c rule ih =>
      obtain ⟨hc, hrule⟩ := not_or.1 (List.mem_cons.not.1 h)
      rw [List.cons_append, splitVersion, ih hrule]
      · rfl
      · exact fun heq => hc heq.symm

/-- A text has one rule and at most one version. -/
theorem versioned_iff {rule : List Char} {version : Option (List Char)} :
    Versioned cs rule version ↔ splitVersion cs = (rule, version) := by
  constructor
  · intro h
    cases h with
    | bare h =>
        have hsplit := splitVersion_append h []
        rwa [List.append_nil, splitVersion, List.append_nil] at hsplit
    | version version h =>
        rw [splitVersion_append h, splitVersion, List.append_nil]
  · intro h
    have hversion := versioned_splitVersion cs
    rwa [h] at hversion

/-- A package path has one part without the name of a declaration file. -/
theorem trimmed_iff : Trimmed cs dir ↔ stripBuild cs = dir := by
  have hfile : ∀ dir : List Char, stripBuild (dir ++ ['/', 'B', 'U', 'I', 'L', 'D']) = dir := by
    intro dir
    have hne : dir ++ ['/', 'B', 'U', 'I', 'L', 'D'] ≠ ['B', 'U', 'I', 'L', 'D'] := by
      intro h
      have hlength := congrArg List.length h
      simp at hlength
    have hsuffix : ['/', 'B', 'U', 'I', 'L', 'D'].isSuffixOf
        (dir ++ ['/', 'B', 'U', 'I', 'L', 'D']) = true :=
      List.isSuffixOf_iff_suffix.2 (List.suffix_append ..)
    rw [stripBuild, if_neg hne, if_pos hsuffix]
    simp
  constructor
  · intro h
    cases h with
    | whole => rfl
    | file => exact hfile dir
    | bare hwhole hnone =>
        rw [stripBuild, if_neg hwhole, if_neg (mt List.isSuffixOf_iff_suffix.1 hnone)]
  · rintro rfl
    by_cases hwhole : cs = ['B', 'U', 'I', 'L', 'D']
    · rw [hwhole]
      exact .whole
    by_cases hsuffix : ['/', 'B', 'U', 'I', 'L', 'D'] <:+ cs
    · obtain ⟨dir, rfl⟩ := hsuffix
      rw [hfile]
      exact .file dir
    · have hbare := Trimmed.bare hwhole hsuffix
      rwa [stripBuild, if_neg hwhole, if_neg (mt List.isSuffixOf_iff_suffix.1 hsuffix)]

/-! ## What the reader accepts -/

/-- The empty text has no separator. -/
theorem Parts.ne_nil {rule : List Char} {version : Option (List Char)}
    (h : Parts cs position before rule version) : cs ≠ [] := by
  rintro rfl
  obtain ⟨hmark, hseparator, -, -, -⟩ := h
  obtain ⟨-, rfl⟩ := Prod.mk.inj (marked_iff.1 hmark)
  have htext := hseparator.text
  simp at htext

/-- The reader accepts a text with the reference that it spells. -/
theorem read_eq_ok_iff {r : Reference} : read cs = .ok r ↔ Spells cs r := by
  constructor
  · intro h
    rw [read] at h
    by_cases hnil : cs = []
    · rw [if_pos hnil] at h
      cases h
    rw [if_neg hnil] at h
    cases hpackage : splitPackage? (splitPosition cs).2 with
    | none =>
        simp only [hpackage] at h
        cases h
    | some found =>
        obtain ⟨package, after⟩ := found
        obtain ⟨before, hseparator, rfl⟩ := splitPackage?_eq_some_iff.1 hpackage
        simp only [hpackage] at h
        by_cases hrule : (splitVersion after).1 = []
        · rw [if_pos hrule] at h
          cases h
        rw [if_neg hrule] at h
        by_cases hversion : (splitVersion after).2 = some []
        · rw [if_pos hversion] at h
          cases h
        rw [if_neg hversion] at h
        obtain rfl := Except.ok.inj h
        exact ⟨.intro (marked_splitPosition cs) hseparator (versioned_splitVersion after) hrule
          hversion, trimmed_iff.2 rfl, rfl, rfl, rfl⟩
  · rintro ⟨hparts, htrim, hpackage, hrule, hversion⟩
    have hnil := hparts.ne_nil
    obtain ⟨hmark, hseparator, hversioned, hrule', hversion'⟩ := hparts
    rw [read, if_neg hnil]
    simp only [marked_iff.1 hmark, splitPackage?_eq_some_iff.2 ⟨_, hseparator, rfl⟩,
      versioned_iff.1 hversioned]
    rw [if_neg hrule', if_neg hversion', trimmed_iff.1 htrim, ← hpackage, ← hrule, ← hversion]

theorem parse_eq_ok_iff_spells {input : String} {r : Reference} :
    parse input = .ok r ↔ Spells input.toList r := by
  rw [← read_eq_ok_iff, parse]
  cases read input.toList with
  | error problem => exact ⟨nofun, nofun⟩
  | ok reference =>
      exact ⟨fun h => congrArg _ (Except.ok.inj h), fun h => congrArg _ (Except.ok.inj h)⟩

/-- A text is accepted if and only if it is not empty and has a colon that no backslash precedes,
    with a rule behind the first of these and a version behind the first `@`, if there is one.
    The reference then has these parts, and the package is the text before the colon, with its
    backslashes before colons taken out and without a trailing `/BUILD`. -/
theorem parse_iff_grammar (input : String) :
    ((∃ r, parse input = .ok r) ↔ input ≠ "" ∧ ∃ position before rule version,
      Parts input.toList position before rule version) ∧
    ∀ r, parse input = .ok r ↔ Spells input.toList r := by
  refine ⟨⟨?_, ?_⟩, fun r => parse_eq_ok_iff_spells⟩
  · rintro ⟨r, h⟩
    obtain ⟨hparts, -, -, -, -⟩ := parse_eq_ok_iff_spells.1 h
    refine ⟨fun hempty => hparts.ne_nil ?_, _, _, _, _, hparts⟩
    rw [hempty]
    rfl
  · rintro ⟨-, position, before, rule, version, hparts⟩
    let package := if position = .this then none
      else some (String.ofList (stripBuild (unescape before)))
    exact ⟨⟨position, package, String.ofList rule, version.map String.ofList⟩,
      parse_eq_ok_iff_spells.2 ⟨hparts, trimmed_iff.2 rfl, rfl, rfl, rfl⟩⟩

/-- Two backslashes before a colon are a backslash and a colon of the package. -/
example : parse "//a\\\\:b/BUILD:c@1@2" =
    .ok ⟨.absolute, some "a\\:b", "c", some "1@2"⟩ := by rfl

end Buildwright.Reference
