import Buildwright.Proofs.Reference.Grammar

/-! # References read back from their texts

    The text of a reference is its mark, the package with a backslash before
    every colon, a colon, the rule and the version.  Escaping is always undone
    by `unescape`; what can be lost is where the parts meet: a backslash at the
    end of the package, a package that ends in the name of a declaration file,
    a relative package that looks like a mark, a rule with an `@`.

    * `Separated.unescape_eq`, `Separated.not_trimmed` — the colon behind a package;
    * `Readable` — the references that nothing of this happens to;
    * `parse_text_iff` — they are the ones that are read back. -/

namespace Buildwright.Reference

variable {cs before after dir : List Char} {position : Position}

/-! ## Escaping -/

/-- `escapeColons` on lists of characters. -/
def escape (cs : List Char) : List Char :=
  Text.replaceChar ':' ['\\', ':'] cs

theorem escape_nil : escape [] = [] := rfl

theorem escape_colon (cs : List Char) : escape (':' :: cs) = '\\' :: ':' :: escape cs := rfl

theorem escape_cons {c : Char} (h : c ≠ ':') (cs : List Char) :
    escape (c :: cs) = c :: escape cs := by
  rw [escape, Text.replaceChar, List.flatMap_cons, if_neg h]
  rfl

theorem escape_append (as bs : List Char) : escape (as ++ bs) = escape as ++ escape bs :=
  Text.replaceChar_append ..

/-- No escaped text begins with a colon. -/
theorem eq_nil_of_colon_first {rest : List Char} (h : [':'] <+: escape cs ++ rest) : cs = [] := by
  cases cs with
  | nil => rfl
  | cons c cs =>
      obtain ⟨tail, h⟩ := h
      by_cases hc : c = ':'
      · subst hc
        cases h
      · rw [escape_cons hc] at h
        exact absurd (List.cons.inj h).1.symm hc

/-- Where no backslash meets a colon, none does when the first character is left out. -/
theorem apart_of_cons {c : Char} {rest : List Char}
    (h : [':'] <+: rest → (c :: cs).getLast? ≠ some '\\') :
    [':'] <+: rest → cs.getLast? ≠ some '\\' := by
  intro hcolon hlast
  rw [List.getLast?_cons, hlast] at h
  exact h hcolon rfl

/-- Where no backslash meets a colon, a backslash in front of an escaped text does not escape
    what follows that text. -/
theorem not_colon_of_cons {c : Char} {rest : List Char}
    (h : [':'] <+: rest → (c :: cs).getLast? ≠ some '\\') :
    c = '\\' → ¬ [':'] <+: escape cs ++ rest := by
  rintro rfl hcolon
  obtain rfl := eq_nil_of_colon_first hcolon
  exact h hcolon rfl

/-- What follows an escaped text is read apart from it, unless a backslash and a colon meet. -/
theorem unescape_escape_append {rest : List Char} (h : [':'] <+: rest → cs.getLast? ≠ some '\\') :
    unescape (escape cs ++ rest) = cs ++ unescape rest := by
  induction cs with
  | nil => rfl
  | cons c cs ih =>
      have hrest := apart_of_cons h
      by_cases hc : c = ':'
      · subst hc
        rw [escape_colon, List.cons_append, List.cons_append, unescape, ih hrest, List.cons_append]
      · rw [escape_cons hc, List.cons_append, unescape_cons (not_colon_of_cons h), ih hrest,
          List.cons_append]

/-- Escaping is undone. -/
theorem unescape_escape (cs : List Char) : unescape (escape cs) = cs := by
  have h : unescape (escape cs ++ []) = cs ++ unescape [] :=
    unescape_escape_append fun hcolon => absurd hcolon (by decide)
  rwa [List.append_nil, unescape, List.append_nil] at h

/-! ## The colon behind a package -/

/-- The first separator stands behind an escaped text, unless a backslash and a colon meet. -/
theorem separated_escape_append_iff {rest : List Char}
    (h : [':'] <+: rest → cs.getLast? ≠ some '\\') :
    Separated (escape cs ++ rest) before after ↔
      ∃ back, before = escape cs ++ back ∧ Separated rest back after := by
  induction cs generalizing before with
  | nil => exact ⟨fun h => ⟨before, rfl, h⟩, fun ⟨_, hback, h⟩ => hback ▸ h⟩
  | cons c cs ih =>
      have hrest := apart_of_cons h
      by_cases hc : c = ':'
      · subst hc
        rw [escape_colon, List.cons_append, List.cons_append, separated_escape_iff]
        simp only [ih hrest]
        constructor
        · rintro ⟨_, rfl, back, rfl, h⟩
          exact ⟨back, rfl, h⟩
        · rintro ⟨back, rfl, h⟩
          exact ⟨_, rfl, back, rfl, h⟩
      · rw [escape_cons hc, List.cons_append, separated_cons_iff hc (not_colon_of_cons h)]
        simp only [ih hrest]
        constructor
        · rintro ⟨_, rfl, back, rfl, h⟩
          exact ⟨back, rfl, h⟩
        · rintro ⟨back, rfl, h⟩
          exact ⟨_, rfl, back, rfl, h⟩

/-- The colon behind a package separates, if the package does not end in a backslash. -/
theorem separated_escape {package : List Char} (hlast : package.getLast? ≠ some '\\')
    (tail : List Char) : Separated (escape package ++ ':' :: tail) (escape package) tail :=
  (separated_escape_append_iff fun _ => hlast).2
    ⟨[], (List.append_nil _).symm, separated_colon_iff.2 ⟨rfl, rfl⟩⟩

/-- Behind a package that does not end in a backslash, the package is read back. -/
theorem Separated.unescape_eq {package tail : List Char} (hlast : package.getLast? ≠ some '\\')
    (h : Separated (escape package ++ ':' :: tail) before after) :
    unescape before = package ∧ after = tail := by
  obtain ⟨back, rfl, hback⟩ := (separated_escape_append_iff fun _ => hlast).1 h
  obtain ⟨rfl, rfl⟩ := separated_colon_iff.1 hback
  rw [List.append_nil]
  exact ⟨unescape_escape package, rfl⟩

/-- Trimming only takes something off the end. -/
theorem Trimmed.isPrefix (h : Trimmed cs dir) : dir <+: cs := by
  cases h with
  | whole => exact List.nil_prefix
  | file => exact List.prefix_append ..
  | bare => exact List.prefix_rfl

theorem trimmed_self_iff : Trimmed dir dir ↔
    dir ≠ ['B', 'U', 'I', 'L', 'D'] ∧ ¬ ['/', 'B', 'U', 'I', 'L', 'D'] <:+ dir := by
  constructor
  · intro h
    refine ⟨?_, ?_⟩
    · rintro rfl
      exact absurd (trimmed_iff.1 h) (by decide)
    · rintro ⟨front, rfl⟩
      have hfront := (trimmed_iff.1 (.file front)).symm.trans (trimmed_iff.1 h)
      exact absurd (List.self_eq_append_right.1 hfront) (by decide)
  · rintro ⟨hwhole, hfile⟩
    exact .bare hwhole hfile

/-- Behind a package that ends in a backslash, the colon is read as a part of the package. -/
theorem Separated.not_trimmed {package tail : List Char} (hlast : package.getLast? = some '\\')
    (h : Separated (escape package ++ ':' :: tail) before after) :
    ¬ Trimmed (unescape before) package := by
  obtain ⟨front, rfl⟩ := List.getLast?_eq_some_iff.1 hlast
  have hclear : ∀ rest, ¬ [':'] <+: '\\' :: rest := by
    rintro rest ⟨rest', heq⟩
    cases heq
  have htext : escape (front ++ ['\\']) ++ ':' :: tail = escape front ++ '\\' :: ':' :: tail := by
    rw [escape_append, List.append_assoc]
    rfl
  rw [htext, separated_escape_append_iff fun hcolon => absurd hcolon (hclear _)] at h
  obtain ⟨_, rfl, hback⟩ := h
  obtain ⟨back, rfl, -⟩ := separated_escape_iff.1 hback
  intro htrim
  -- where the package has its backslash, the text that was read has a colon
  have hprefix := htrim.isPrefix
  rw [unescape_escape_append fun hcolon => absurd hcolon (hclear _), unescape,
    List.prefix_append_right_inj] at hprefix
  obtain ⟨rest, heq⟩ := hprefix
  cases heq

/-! ## The mark before a package -/

/-- The text of a mark and what is left behind it. -/
theorem Marked.text_eq {rest : List Char} (h : Marked cs position rest) :
    cs = (mark position).toList ++ rest := by
  cases h with
  | absolute => rfl
  | builtin => rfl
  | this => rfl
  | relative => rfl

/-- A package and a colon look like a mark only if the package does. -/
theorem pair_prefix_iff {c : Char} {tail : List Char} (hc : c ≠ ':') (hc' : c ≠ '\\') :
    [c, c] <+: escape cs ++ ':' :: tail ↔ [c, c] <+: cs := by
  match cs with
  | [] => simp [escape_nil, hc]
  | [a] =>
      by_cases ha : a = ':'
      · subst ha
        simp [escape_colon, hc, hc']
      · simp [escape_cons ha, escape_nil, hc]
  | a :: b :: rest =>
      by_cases ha : a = ':'
      · subst ha
        simp [escape_colon, hc, hc']
      · by_cases hb : b = ':'
        · subst hb
          simp [escape_cons ha, escape_colon, hc, hc']
        · simp [escape_cons ha, escape_cons hb]

/-- Which packages can be written behind a mark. -/
theorem marked_mark_iff {package tail : List Char} :
    Marked ((mark position).toList ++ (escape package ++ ':' :: tail)) position
      (escape package ++ ':' :: tail) ↔
    (position = .this → package = []) ∧ (position = .relative →
      package ≠ [] ∧ ¬ ['/', '/'] <+: package ∧ ¬ ['#', '#'] <+: package) := by
  cases position with
  | absolute => exact ⟨fun _ => ⟨nofun, nofun⟩, fun _ => .absolute _⟩
  | builtin => exact ⟨fun _ => ⟨nofun, nofun⟩, fun _ => .builtin _⟩
  | this =>
      constructor
      · intro h
        refine ⟨fun _ => ?_, nofun⟩
        generalize htext : escape package ++ ':' :: tail = text at h
        cases h with
        | this rest => exact eq_nil_of_colon_first ⟨rest, htext.symm⟩
      · rintro ⟨h, -⟩
        rw [h rfl]
        exact .this tail
  | relative =>
      have hslash : ['/', '/'] <+: escape package ++ ':' :: tail ↔ ['/', '/'] <+: package :=
        pair_prefix_iff (by decide) (by decide)
      have hmark : ['#', '#'] <+: escape package ++ ':' :: tail ↔ ['#', '#'] <+: package :=
        pair_prefix_iff (by decide) (by decide)
      rw [← hslash, ← hmark]
      constructor
      · intro h
        refine ⟨nofun, fun _ => ?_⟩
        generalize htext : escape package ++ ':' :: tail = text at h ⊢
        cases h with
        | relative habsolute hbuiltin hthis =>
            refine ⟨?_, habsolute, hbuiltin⟩
            rintro rfl
            exact hthis ⟨tail, htext⟩
      · rintro ⟨-, h⟩
        obtain ⟨hne, habsolute, hbuiltin⟩ := h rfl
        exact .relative habsolute hbuiltin fun hcolon => hne (eq_nil_of_colon_first hcolon)

/-! ## Reading back -/

/-- Whether a package path at a position is kept by what follows and what precedes it. -/
structure ReadablePackage (position : Position) (package : List Char) : Prop where
  backslash : package.getLast? ≠ some '\\'
  whole : package ≠ ['B', 'U', 'I', 'L', 'D']
  file : ¬ ['/', 'B', 'U', 'I', 'L', 'D'] <:+ package
  relative : position = .relative →
    package ≠ [] ∧ ¬ ['/', '/'] <+: package ∧ ¬ ['#', '#'] <+: package

/-- Whether no part of a reference is lost in its text. -/
structure Readable (r : Reference) : Prop where
  rule : r.rule ≠ "" ∧ '@' ∉ r.rule.toList
  version : r.version ≠ some ""
  package : (r.position = .this ∧ r.package = none) ∨
    (r.position ≠ .this ∧ ∃ p, r.package = some p ∧ ReadablePackage r.position p.toList)

/-- What stands behind the colon of a reference. -/
def tail (r : Reference) : List Char :=
  r.rule.toList ++
    (match r.version with
     | some version => '@' :: version.toList
     | none => [])

theorem toList_text (r : Reference) : r.text.toList =
    (mark r.position).toList ++ (escape (r.package.getD "").toList ++ ':' :: r.tail) := by
  rw [text, tail, escapeColons, Text.replace, escape]
  cases r.version with
  | none => simp
  | some version => simp

/-- A rule without `@` is cut off its version. -/
theorem versioned_tail {r : Reference} (h : '@' ∉ r.rule.toList) :
    Versioned r.tail r.rule.toList (r.version.map String.toList) := by
  rw [tail]
  cases r.version with
  | none =>
      rw [List.append_nil]
      exact .bare h
  | some version => exact .version version.toList h

theorem Versioned.notMem {rule : List Char} {version : Option (List Char)}
    (h : Versioned cs rule version) : '@' ∉ rule := by
  cases h with
  | bare h => exact h
  | version _ h => exact h

/-- A version as a text and as its characters. -/
theorem eq_map_ofList_iff {version : Option String} {chars : Option (List Char)} :
    version = chars.map String.ofList ↔ chars = version.map String.toList := by
  constructor
  · rintro rfl
    rw [Option.map_map, show String.toList ∘ String.ofList = id from
      funext fun _ => String.toList_ofList, Option.map_id, id]
  · rintro rfl
    rw [Option.map_map, show String.ofList ∘ String.toList = id from
      funext fun _ => String.ofList_toList, Option.map_id, id]

theorem map_toList_eq_nil_iff {version : Option String} :
    version.map String.toList = some [] ↔ version = some "" := by
  rw [eq_comm, ← eq_map_ofList_iff, Option.map_some, String.ofList_nil]

/-- The text of a reference is read back as the reference if and only if no part of it is lost. -/
theorem parse_text_iff (r : Reference) : parse r.text = .ok r ↔ r.Readable := by
  rw [parse_eq_ok_iff_spells, toList_text]
  constructor
  · rintro ⟨⟨hmark, hseparator, hversioned, hrule', hversion'⟩, htrim, hpackage, hrule, hversion⟩
    obtain rfl := List.append_cancel_left hmark.text_eq
    obtain rfl := String.ofList_eq.1 hrule.symm
    obtain rfl := eq_map_ofList_iff.1 hversion
    refine ⟨⟨mt String.toList_eq_nil_iff.2 hrule', hversioned.notMem⟩,
      mt map_toList_eq_nil_iff.2 hversion', ?_⟩
    by_cases hthis : r.position = .this
    · rw [if_pos hthis] at hpackage
      exact .inl ⟨hthis, hpackage⟩
    · rw [if_neg hthis] at hpackage
      rw [hpackage, Option.getD_some, String.toList_ofList] at hmark hseparator
      have hlast := fun hlast => hseparator.not_trimmed hlast htrim
      rw [(hseparator.unescape_eq hlast).1, trimmed_self_iff] at htrim
      refine .inr ⟨hthis, _, hpackage, ?_⟩
      rw [String.toList_ofList]
      exact ⟨hlast, htrim.1, htrim.2, (marked_mark_iff.1 hmark).2⟩
  · rintro ⟨⟨hrule, hat⟩, hversion, hpackage⟩
    have hrule' : r.rule.toList ≠ [] := mt String.toList_eq_nil_iff.1 hrule
    have hversion' : r.version.map String.toList ≠ some [] := mt map_toList_eq_nil_iff.1 hversion
    have hback : r.version = (r.version.map String.toList).map String.ofList :=
      eq_map_ofList_iff.2 rfl
    rcases hpackage with ⟨hthis, hnone⟩ | ⟨hthis, p, hsome, hp⟩
    · have hmark : Marked ((mark r.position).toList ++ (escape [] ++ ':' :: r.tail)) r.position _ :=
        marked_mark_iff.2 ⟨fun _ => rfl, fun h => by rw [hthis] at h; cases h⟩
      rw [hnone]
      refine ⟨⟨hmark, separated_escape (by decide) r.tail, versioned_tail hat, hrule', hversion'⟩,
        trimmed_iff.2 rfl, ?_, String.ofList_toList.symm, hback⟩
      rw [if_pos hthis, hnone]
    · have hmark : Marked ((mark r.position).toList ++ (escape p.toList ++ ':' :: r.tail))
          r.position _ := marked_mark_iff.2 ⟨fun h => absurd h hthis, hp.relative⟩
      have htrim : Trimmed (unescape (escape p.toList)) p.toList := by
        rw [unescape_escape]
        exact trimmed_self_iff.2 ⟨hp.whole, hp.file⟩
      rw [hsome]
      refine ⟨⟨hmark, separated_escape hp.backslash r.tail, versioned_tail hat, hrule', hversion'⟩,
        htrim, ?_, String.ofList_toList.symm, hback⟩
      rw [if_neg hthis, hsome, String.ofList_toList]

end Buildwright.Reference
