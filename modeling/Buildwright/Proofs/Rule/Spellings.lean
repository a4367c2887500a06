import Buildwright.Proofs.Path.Walking
import Buildwright.Proofs.Rule.Inside

/-! # Files under several spellings

    A rule tells the files that it matches apart by their texts, and what is made of them by
    the paths that the texts lead to.  So a file that is found under two texts is a source
    twice, and an exclude leaves a file out only under the text that the exclude matches.
    Where the texts are spelled plainly, by names with one slash between any two of them,
    two texts lead to two paths.

    * `Preparer.place`, `Preparer.place_eq_iff_same` — the path that a text leads to;
    * `Preparer.PlainText`, `Preparer.PlainText.eq_of_place_eq` — texts that are spelled plainly;
    * `Prepared.sources_distinct_iff` — when the sources of a rule are distinct;
    * `Preparer.excludes_win_iff` — when what is excluded is no source and no header. -/

namespace Buildwright

open Buildwright.Path

namespace Preparer

variable {P : Preparer} {rule : Rule} {a : CcAttributes} {patterns files : List String}
  {paths : List Path} {path : Path} {f g : String}

/-! ## Where texts lead -/

/-- The path that the text of a file leads to, from the directory of a rule. -/
def place (P : Preparer) (rule : Rule) (file : String) : Path :=
  ((P.sourceDir rule).join ⟨file⟩).normal

/-- A text of names leads below the directory. -/
theorem components_place (P : Preparer) (rule : Rule)
    (hf : ∀ c ∈ (⟨f⟩ : Path).components, c.isName = true) :
    (P.place rule f).components =
      Normal.components (P.sourceDir rule).components ++ (⟨f⟩ : Path).components := by
  rw [place, components_normal_join _ (isAbsolute_of_names hf),
    Normal.components_append_names _ hf]

/-- Texts of names lead to one path if and only if they have the same names. -/
theorem place_eq_iff_same (P : Preparer) (rule : Rule)
    (hf : ∀ c ∈ (⟨f⟩ : Path).components, c.isName = true)
    (hg : ∀ c ∈ (⟨g⟩ : Path).components, c.isName = true) :
    P.place rule f = P.place rule g ↔ (⟨f⟩ : Path).Same ⟨g⟩ := by
  constructor
  · intro h
    have hcomponents := congrArg components h
    rw [components_place P rule hf, components_place P rule hg] at hcomponents
    exact List.append_cancel_left hcomponents
  · intro h
    have hcomponents : (P.place rule f).components = (P.place rule g).components := by
      rw [components_place P rule hf, components_place P rule hg, h]
    rw [place, normal_eq_ofComponents, ← place, hcomponents, place, ← normal_eq_ofComponents]

/-- Whether a text is spelled plainly: names, with one slash between any two of them. -/
def PlainText (file : String) : Prop :=
  (∀ c ∈ (⟨file⟩ : Path).components, c.isName = true) ∧ (⟨file⟩ : Path).normal = ⟨file⟩

/-- Plain texts that lead to one path are the same. -/
theorem PlainText.eq_of_place_eq (hf : PlainText f) (hg : PlainText g)
    (h : P.place rule f = P.place rule g) : f = g := by
  have hsame : (⟨f⟩ : Path).components = (⟨g⟩ : Path).components :=
    (place_eq_iff_same P rule hf.1 hg.1).1 h
  refine congrArg Path.text (?_ : (⟨f⟩ : Path) = ⟨g⟩)
  rw [← hf.2, ← hg.2, normal, normal, hsame]

/-! ## What is found -/

/-- The path of a file that may have one is where its text leads. -/
theorem eq_place_of_projectPath (h : projectPath rule (P.sourceDir rule) f = .ok path) :
    path = P.place rule f :=
  (projectPath_eq_ok_iff.1 h).2

theorem eq_map_place (h : files.mapM (projectPath rule (P.sourceDir rule)) = .ok paths) :
    paths = files.map (P.place rule) := by
  induction files generalizing paths with
  | nil => exact (Except.ok.inj h).symm
  | cons f files ih =>
      obtain ⟨path, rest, hpath, hrest, rfl⟩ := mapM_cons_eq_ok_iff.1 h
      rw [List.map_cons, ← ih hrest, ← eq_place_of_projectPath hpath]

/-- What is found has the paths that its texts lead to. -/
theorem Placed.eq_map (h : P.Placed rule a patterns files paths) :
    paths = files.map (P.place rule) :=
  eq_map_place h.projected

theorem Placed.mem_paths_iff (h : P.Placed rule a patterns files paths) :
    path ∈ paths ↔ ∃ file, P.Finds rule a patterns file ∧ P.place rule file = path := by
  rw [h.eq_map, List.mem_map]
  exact exists_congr fun file => and_congr_left fun _ => h.mem_iff file

/-- The paths are distinct if and only if no two of the texts lead to one path. -/
theorem Placed.nodup_paths_iff (h : P.Placed rule a patterns files paths) :
    paths.Nodup ↔ ∀ f g, P.Finds rule a patterns f → P.Finds rule a patterns g →
      P.place rule f = P.place rule g → f = g := by
  rw [h.eq_map, List.nodup_map_iff_inj_on h.nodup]
  constructor
  · intro hinj f g hf hg
    exact hinj f ((h.mem_iff f).2 hf) g ((h.mem_iff g).2 hg)
  · intro hinj f hf g hg
    exact hinj f g ((h.mem_iff f).1 hf) ((h.mem_iff g).1 hg)

/-- Whether one of the patterns of a rule matches a file. -/
def Matches (P : Preparer) (rule : Rule) (patterns : List String) (file : String) : Prop :=
  ∃ pattern ∈ patterns, ∃ files,
    P.expand pattern (P.layout.packageDirOnDisk rule.package) = .ok files ∧ file ∈ files

/-- A rule finds what its patterns match and its excludes do not. -/
theorem finds_iff : P.Finds rule a patterns f ↔
    P.Matches rule patterns f ∧ ¬ P.Matches rule a.excludes f := by
  constructor
  · intro h
    refine ⟨h.matched, ?_⟩
    rintro ⟨pattern, hpattern, files, hfiles, hf⟩
    exact h.kept pattern hpattern files hfiles hf
  · rintro ⟨hmatched, hnot⟩
    exact ⟨hmatched, fun pattern hpattern files hfiles hf =>
      hnot ⟨pattern, hpattern, files, hfiles, hf⟩⟩

theorem matches_append {patterns' : List String} : P.Matches rule (patterns ++ patterns') f ↔
    P.Matches rule patterns f ∨ P.Matches rule patterns' f := by
  simp only [Matches, List.mem_append, or_and_right, exists_or]

end Preparer

/-- Whether a path is that of a source or of a header. -/
def Resolved.Uses (known : Resolved) (path : Path) : Prop :=
  path ∈ known.sources.map SourceFile.path ∨ path ∈ known.headers

namespace Preparer

variable {P : Preparer} {l : Linked} {rule : Rule} {a : CcAttributes} {known : Resolved}
  {path : Path} {f : String}

/-- What is used of a rule is what it finds as a source or as a header. -/
theorem Found.uses_iff (h : P.Found l rule known) (hcc : rule.cc? = some a) :
    known.Uses path ↔
      ∃ file, P.Finds rule a (a.srcs ++ a.headers) file ∧ P.place rule file = path := by
  obtain ⟨⟨files, hsources⟩, files', hheaders⟩ := exists_placed (h.files a hcc)
  simp only [Resolved.Uses, hsources.mem_paths_iff, hheaders.mem_paths_iff, finds_iff,
    matches_append, or_and_right, exists_or]

/-- **Excludes win over files of their text.** What a prepared rule uses are the paths that the
    texts lead to that its patterns match and its excludes do not.  So it uses no path of an
    excluded file if and only if each text that leads to such a path is itself matched by an
    exclude, as it is if all texts are spelled plainly. -/
theorem excludes_win_iff (h : P.prepareRule l rule = .ok known) (hcc : rule.cc? = some a) :
    (∀ path, known.Uses path ↔ ∃ file, P.Matches rule (a.srcs ++ a.headers) file ∧
      ¬ P.Matches rule a.excludes file ∧ P.place rule file = path) ∧
    ((∀ e, P.Matches rule a.excludes e → ¬ known.Uses (P.place rule e)) ↔
      ∀ f e, P.Matches rule (a.srcs ++ a.headers) f → P.Matches rule a.excludes e →
        P.place rule f = P.place rule e → P.Matches rule a.excludes f) ∧
    ((∀ file, P.Matches rule (a.srcs ++ a.headers ++ a.excludes) file → PlainText file) →
      ∀ e, P.Matches rule a.excludes e → ¬ known.Uses (P.place rule e)) := by
  have huses : ∀ path, known.Uses path ↔ ∃ file, P.Matches rule (a.srcs ++ a.headers) file ∧
      ¬ P.Matches rule a.excludes file ∧ P.place rule file = path := by
    intro path
    simp only [(found_of_prepareRule h).uses_iff hcc, finds_iff, and_assoc]
  have hwin : (∀ e, P.Matches rule a.excludes e → ¬ known.Uses (P.place rule e)) ↔
      ∀ f e, P.Matches rule (a.srcs ++ a.headers) f → P.Matches rule a.excludes e →
        P.place rule f = P.place rule e → P.Matches rule a.excludes f := by
    constructor
    · intro hnone f e hf he hplace
      by_contra hnot
      exact hnone e he ((huses _).2 ⟨f, hf, hnot, hplace⟩)
    · intro hall e he huse
      obtain ⟨f, hf, hnot, hplace⟩ := (huses _).1 huse
      exact hnot (hall f e hf he hplace)
  refine ⟨huses, hwin, fun hplain => hwin.2 fun f e hf he hplace => ?_⟩
  obtain rfl : f = e :=
    (hplain f (matches_append.2 (.inl hf))).eq_of_place_eq (hplain e (matches_append.2 (.inr he)))
      hplace
  exact he

end Preparer

namespace Spellings

def libraryAttributes : CcAttributes where
  srcs := ["x.cc", "../pkg/x.cc", "y.cc"]
  excludes := ["../pkg/y.cc"]

/-- A library that has one source by two texts, and excludes the other one by a third. -/
def library : Rule where
  id := 0
  package := "pkg"
  declaration := {
    type := .ccLibrary
    name := "lib"
    version := "DEFAULT"
    deps := []
    attributes := .cc libraryAttributes }

def project : Linked where
  set := {
    rules := [library]
    packages := [⟨"pkg", ⟨"/proj/pkg/BUILD"⟩, [("lib", 0)]⟩] }
  graph := ⟨[[]]⟩
  size_eq := by decide

def libraryKnown : Resolved where
  sources := [⟨"x.cc", ⟨"pkg/x.cc"⟩⟩, ⟨"x.cc", ⟨"pkg/x.cc"⟩⟩, ⟨"y.cc", ⟨"pkg/y.cc"⟩⟩]
  artifacts := [(.debug, [⟨"build/pkg@@lib@DEFAULT/DEBUG/liblib.a"⟩])]

theorem prepareRule_library :
    Objects.preparer.prepareRule project library = .ok libraryKnown := by
  have horder : project.dependenciesInOrder 0 = .ok [] := by cbv
  rw [Preparer.prepareRule, show library.id = 0 from rfl, horder]
  rfl

/-- Where every pattern matches the file that it names, the patterns are what is matched. -/
theorem matches_iff {rule : Rule} {patterns : List String} {file : String} :
    Objects.preparer.Matches rule patterns file ↔ file ∈ patterns := by
  constructor
  · rintro ⟨pattern, hpattern, _, ⟨⟩, hfile⟩
    rw [List.mem_singleton.1 hfile]
    exact hpattern
  · exact fun hfile => ⟨file, hfile, _, rfl, List.mem_singleton_self _⟩

end Spellings

namespace Preparer

open Spellings

/-- The library uses `pkg/y.cc`, which it excludes as `../pkg/y.cc`. -/
theorem library_uses_excluded : ∃ known,
    Objects.preparer.prepareRule project library = .ok known ∧
    Objects.preparer.Matches library libraryAttributes.excludes "../pkg/y.cc" ∧
    known.Uses (Objects.preparer.place library "../pkg/y.cc") := by
  obtain ⟨huses, -⟩ := excludes_win_iff prepareRule_library (a := libraryAttributes) rfl
  refine ⟨_, prepareRule_library, matches_iff.2 (by decide), (huses _).2 ⟨"y.cc", ?_, ?_, ?_⟩⟩
  · exact matches_iff.2 (by decide)
  · rw [matches_iff]
    decide
  · decide +kernel

end Preparer

/-! ## Sources -/

namespace Prepared

open Preparer

variable {P : Preparer} {l : Linked} {p : Prepared} {id : RuleId} {rule : Rule}

/-- **A source is listed once for each text that it is found under.** The paths of the sources
    of a prepared rule are those that the texts lead to that it finds by its patterns, each text
    once.  So they are distinct if and only if no two of the texts lead to one path, as they are
    if all texts are spelled plainly; and where they are not, the source is repeated as a whole,
    and has its object twice. -/
theorem sources_distinct_iff (h : ofLinked P l = .ok p) (hrule : l.set.rules[id]? = some rule) :
    (∀ a, rule.cc? = some a → ∃ files : List String, files.Nodup ∧
      (∀ file, file ∈ files ↔ P.Finds rule a a.srcs file) ∧
      (p.at_ id).sources.map SourceFile.path = files.map (P.place rule)) ∧
    (((p.at_ id).sources.map SourceFile.path).Nodup ↔
      ∀ a, rule.cc? = some a → ∀ f g, P.Finds rule a a.srcs f → P.Finds rule a a.srcs g →
        P.place rule f = P.place rule g → f = g) ∧
    ((∀ a, rule.cc? = some a → ∀ file, P.Finds rule a a.srcs file → PlainText file) →
      ((p.at_ id).sources.map SourceFile.path).Nodup) ∧
    ∀ s ∈ (p.at_ id).sources, ∀ s' ∈ (p.at_ id).sources, s.path = s'.path → s = s' := by
  have hfound := found h hrule
  have hdistinct : ((p.at_ id).sources.map SourceFile.path).Nodup ↔
      ∀ a, rule.cc? = some a → ∀ f g, P.Finds rule a a.srcs f → P.Finds rule a a.srcs g →
        P.place rule f = P.place rule g → f = g := by
    cases hcc : rule.cc? with
    | none =>
        rw [hfound.other hcc]
        exact iff_of_true List.nodup_nil nofun
    | some a =>
        obtain ⟨⟨files, hplaced⟩, -⟩ := exists_placed (hfound.files a hcc)
        rw [hplaced.nodup_paths_iff]
        constructor
        · rintro hall _ ⟨⟩
          exact hall
        · exact fun hall => hall a rfl
  refine ⟨fun a hcc => ?_, hdistinct, fun hplain => hdistinct.2 ?_, ?_⟩
  · obtain ⟨⟨files, hplaced⟩, -⟩ := exists_placed (hfound.files a hcc)
    exact ⟨files, hplaced.nodup, hplaced.mem_iff, hplaced.eq_map⟩
  · intro a hcc f g hf hg
    exact (hplain a hcc f hf).eq_of_place_eq (hplain a hcc g hg)
  · intro s hs s' hs' hpath
    obtain ⟨-, -, hstem⟩ := hfound.source hs
    obtain ⟨-, -, hstem'⟩ := hfound.source hs'
    have hstems : s.stem = s'.stem := by rw [hstem, hstem', hpath]
    cases s with
    | mk stem path =>
        cases s' with
        | mk stem' path' =>
            obtain rfl : stem = stem' := hstems
            obtain rfl : path = path' := hpath
            rfl

open Preparer Spellings

/-- The library lists `pkg/x.cc` twice, for it finds it under two texts. -/
theorem library_repeats_source : ∃ p, ofLinked Objects.preparer project = .ok p ∧
    project.set.rules[0]? = some library ∧
    ¬ ((p.at_ 0).sources.map SourceFile.path).Nodup := by
  obtain ⟨p, hp, -⟩ := exists_ofLinked_single rfl prepareRule_library
  have hrule : project.set.rules[0]? = some library := rfl
  obtain ⟨-, hdistinct, -⟩ := sources_distinct_iff hp hrule
  have hfinds : ∀ file ∈ ["x.cc", "../pkg/x.cc"],
      Objects.preparer.Finds library libraryAttributes libraryAttributes.srcs file := by
    intro file hfile
    rw [finds_iff, matches_iff, matches_iff]
    revert file
    decide
  refine ⟨p, hp, hrule, fun hnodup => ?_⟩
  have hsame : "x.cc" = "../pkg/x.cc" :=
    hdistinct.1 hnodup libraryAttributes rfl _ _ (hfinds _ (by decide)) (hfinds _ (by decide))
      (by decide +kernel)
  exact absurd hsame (by decide)

end Prepared

end Buildwright
