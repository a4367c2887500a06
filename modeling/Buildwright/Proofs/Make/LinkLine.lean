import Buildwright.Proofs.Make.Complete
import Buildwright.Proofs.Rule.Flags

/-! # Link lines

    A linker takes from a library what the files in front of it miss, so a library
    has to stand in front of those that it uses itself.  The link line of a program
    goes through the dependencies of the program from the last one to the first one
    and names every library once.  A rule stands there in front of all that it depends
    on, so its libraries do as well, unless two rules leave the same file.

    * `Prepared.Leaves` — the libraries that a rule leaves;
    * `Prepared.Links`, `Prepared.links_reverse` — what has to be linked, in order;
    * `Prepared.program_linked` — the link lines of programs. -/

namespace Buildwright

/-! ## Libraries of rules -/

namespace Make

/-- A file is a library by its ending. -/
theorem isLibraryFile_iff {path : Path} : isLibraryFile path = true ↔
    ∃ stem, path.text = stem ++ ".a" ∨ path.text = stem ++ ".so" := by
  have hending : ∀ ending : String, ending.toList.isSuffixOf path.text.toList = true ↔
      ∃ stem, path.text = stem ++ ending := by
    intro ending
    rw [List.isSuffixOf_iff_suffix]
    constructor
    · rintro ⟨front, hfront⟩
      refine ⟨String.ofList front, String.toList_inj.1 ?_⟩
      rw [String.toList_append, String.toList_ofList, hfront]
    · rintro ⟨stem, hstem⟩
      rw [hstem, String.toList_append]
      exact List.suffix_append ..
  rw [isLibraryFile, List.any_cons, List.any_cons, List.any_nil, Bool.or_false, Bool.or_eq_true,
    hending, hending, exists_or]

end Make

namespace Prepared

variable {p : Prepared} {t : BuildType} {r d : RuleId} {file : String} {order : List RuleId}

/-- Whether a rule leaves a library, by the text of its path, for those that depend on it. -/
def Leaves (p : Prepared) (t : BuildType) (d : RuleId) (file : String) : Prop :=
  (∃ path ∈ (p.at_ d).artifactsFor t, path.text = file) ∧
    ∃ stem, file = stem ++ ".a" ∨ file = stem ++ ".so"

/-- Whether files are what a program has to be linked with: the libraries of everything that it
    depends on, each once, and those of a rule in front of those that the rule depends on. -/
structure Links (p : Prepared) (t : BuildType) (r : RuleId) (files : List String) : Prop where
  nodup : files.Nodup
  mem_iff : ∀ file, file ∈ files ↔ ∃ d, p.linked.graph.DependsOn r d ∧ p.Leaves t d file
  before : ∀ d d', p.linked.graph.DependsOn r d → p.linked.graph.DependsOn d d' →
    ∀ file file', p.Leaves t d file → p.Leaves t d' file' → [file, file'].Sublist files

/-- The libraries that a rule leaves. -/
def libraries (p : Prepared) (t : BuildType) (d : RuleId) : List String :=
  Make.texts (((p.at_ d).artifactsFor t).filter Make.isLibraryFile)

theorem mem_libraries_iff : file ∈ p.libraries t d ↔ p.Leaves t d file := by
  simp only [libraries, Make.texts, List.mem_map, List.mem_filter, Make.isLibraryFile_iff, Leaves]
  constructor
  · rintro ⟨path, ⟨hpath, hending⟩, rfl⟩
    exact ⟨⟨path, hpath, rfl⟩, hending⟩
  · rintro ⟨⟨path, hpath, rfl⟩, hending⟩
    exact ⟨path, ⟨hpath, hending⟩, rfl⟩

/-- Only rules leave libraries. -/
theorem Leaves.lt_size (h : p.Leaves t d file) : d < p.linked.graph.size := by
  obtain ⟨⟨path, hpath, -⟩, -⟩ := h
  rw [p.linked.size_eq]
  exact lt_of_mem_artifactsFor hpath

/-- A library is left by one rule, if no two rules leave the same file. -/
theorem Leaves.unique {d' : RuleId}
    (hdisjoint : ∀ v w, v ≠ w → ((p.at_ v).artifactsFor t).Disjoint ((p.at_ w).artifactsFor t))
    (h : p.Leaves t d file) (h' : p.Leaves t d' file) : d = d' := by
  obtain ⟨⟨path, hpath, rfl⟩, -⟩ := h
  obtain ⟨⟨path', hpath', htext⟩, -⟩ := h'
  obtain rfl : path' = path := congrArg Path.mk htext
  by_contra hne
  exact hdisjoint d d' hne hpath hpath'

/-! ## From the last dependency to the first one -/

/-- Libraries are linked in the reverse order of the dependencies. -/
theorem links_reverse (horder : p.linked.graph.InOrder r order)
    (hdisjoint : ∀ v w, v ≠ w → ((p.at_ v).artifactsFor t).Disjoint ((p.at_ w).artifactsFor t)) :
    p.Links t r (order.reverse.flatMap (p.libraries t)).eraseDups where
  nodup := nodup_eraseDups _
  mem_iff file := by
    rw [List.mem_eraseDups, List.mem_flatMap]
    refine exists_congr fun d => ?_
    rw [List.mem_reverse, horder.mem_iff d, mem_libraries_iff, and_congr_left_iff]
    exact fun hleaves => and_iff_left hleaves.lt_size
  before d d' hd hd' file file' hfile hfile' := by
    obtain ⟨front, back, rfl⟩ :=
      List.append_of_mem ((horder.mem_iff d).2 ⟨hd, hfile.lt_size⟩)
    have hfront : d' ∈ front := horder.sorted.mem_of_dependsOn rfl hd' hfile'.lt_size
    have hsplit : (front ++ d :: back).reverse = (back.reverse ++ [d]) ++ front.reverse := by
      rw [List.reverse_append, List.reverse_cons]
    rw [hsplit, List.flatMap_append]
    refine sublist_eraseDups ?_ (fun hin => ?_) ?_
    · exact List.mem_flatMap.2 ⟨d, List.mem_append_right _ (List.mem_singleton_self d),
        mem_libraries_iff.2 hfile⟩
    · -- what leaves `file'` is in front of `d`, so it is neither `d` nor behind it
      obtain ⟨v, hv, hleaves⟩ := List.mem_flatMap.1 hin
      obtain rfl := (mem_libraries_iff.1 hleaves).unique hdisjoint hfile'
      rw [← List.reverse_cons, List.mem_reverse] at hv
      exact (List.nodup_append'.1 horder.nodup).2.2 hfront hv
    · exact List.mem_flatMap.2 ⟨d', List.mem_reverse.2 hfront, mem_libraries_iff.2 hfile'⟩

/-! ## The recipe -/

variable {s : Session} {expand : String → Path → Except ExpandFault (List String)} {l : Linked}
  {rule : Rule} {a : CcAttributes}

theorem isLibrary_of_isBinary {type : RuleType} (h : type.isBinary = true) :
    type.isLibrary = false := by
  cases type
  case ccLibrary => cases h
  all_goals rfl

/-- A program leaves itself, for every build type of the run. -/
theorem exists_program (hfound : (s.preparer expand).Found l rule (p.at_ r))
    (hprogram : rule.type.isBinary = true) (hcc : rule.declaration.attributes = .cc a)
    (ht : t ∈ s.buildTypes) : ∃ program, (p.at_ r).artifactsFor t = [program] := by
  have htypes : t ∈ (s.preparer expand).buildTypes := ht
  rw [hfound.artifactsFor_eq, if_pos htypes, Preparer.artifactsOf]
  simp only [hcc, isLibrary_of_isBinary hprogram]
  exact ⟨_, rfl⟩

/-- The libraries among all that the dependencies leave are those of the dependencies. -/
theorem texts_filter_isLibraryFile (p : Prepared) (t : BuildType) (ids : List RuleId) :
    Make.texts ((ids.flatMap fun d => (p.at_ d).artifactsFor t).filter Make.isLibraryFile) =
      ids.flatMap (p.libraries t) := by
  rw [Make.texts, List.filter_flatMap, List.map_flatMap]
  rfl

/-- The commands that link a program. -/
theorem linkRecipe_eq (hrule : (s.emission p).rule r = rule)
    (hprogram : rule.type.isBinary = true) (hcc : rule.declaration.attributes = .cc a)
    (program : Path) (objects : List Path) :
    Make.linkRecipe (s.emission p) r t program objects =
      [Make.makeDirectory (Make.directoryOf program),
        Make.line (s.toolchain.cxx :: t.flags ++ ["-o", program.text] ++ Make.texts objects ++
          ((p.at_ r).order.reverse.flatMap (p.libraries t)).eraseDups ++
          (a.ldflags ++ (p.at_ r).inherited))] := by
  have hlibraries : Make.texts ((((s.emission p).resolved r).order.reverse.flatMap fun d =>
      ((s.emission p).resolved d).artifactsFor t).filter Make.isLibraryFile) =
        (p.at_ r).order.reverse.flatMap (p.libraries t) :=
    texts_filter_isLibraryFile p t _
  have hown : (rule.cc?.map CcAttributes.ldflags).getD [] = a.ldflags := by
    rw [Rule.cc?, hcc]
    rfl
  rw [Make.linkRecipe, hrule]
  simp only [isLibrary_of_isBinary hprogram, hlibraries, hown]
  rw [← List.append_assoc]
  rfl

/-- **Link lines are in order.** A program of prepared rules is made, for every build type, by a
    command that names the libraries of everything the program depends on between its objects
    and its linker flags: each library once, and if no two rules leave the same file, those of
    a rule in front of those that the rule depends on. -/
theorem program_linked (hn : l.set.Numbered)
    (hp : Prepared.ofLinked (s.preparer expand) l = .ok p) (hr : l.set.rules[r]? = some rule)
    (hprogram : rule.type.isBinary = true) (hcc : rule.declaration.attributes = .cc a)
    (ht : t ∈ s.buildTypes)
    (hdisjoint : ∀ v w, v ≠ w → ((p.at_ v).artifactsFor t).Disjoint ((p.at_ w).artifactsFor t)) :
    ∃ program libraries, (p.at_ r).artifactsFor t = [program] ∧ p.Links t r libraries ∧
      ∃ target ∈ (Make.ofCc (s.emission p) r).targets, target.outputs = [program.text] ∧
        target.recipe =
          [Make.makeDirectory (Make.directoryOf program),
            Make.line (s.toolchain.cxx :: t.flags ++ ["-o", program.text] ++
              ((p.at_ r).sources.map fun source =>
                (rule.objectPath s.layout.buildRoot t source).text) ++
              libraries ++ (a.ldflags ++ (p.at_ r).inherited))] := by
  have hfound := found hp hr
  obtain ⟨rfl, -⟩ := ofLinked_eq_ok hp
  have hid : rule.id = r := id_eq_of_map_id hn hr
  have hrule : (s.emission p).rule r = rule := by
    obtain ⟨hlt, rfl⟩ := List.getElem?_eq_some_iff.1 hr
    exact Session.rule_emission hlt
  obtain ⟨program, hone⟩ := exists_program hfound hprogram hcc ht
  have horder : p.linked.graph.InOrder r (p.at_ r).order := hid ▸ hfound.inOrder
  have htarget : Make.artifactTarget (s.emission p) r t program ∈
      (Make.ofCc (s.emission p) r).targets := by
    have hhead : (((s.emission p).resolved r).artifactsFor t).head? = some program :=
      congrArg List.head? hone
    exact Make.mem_ofCc_iff.2 (.inr ⟨t, ht,
      Make.mem_ccTargets_iff.2 (.inr (.inl ⟨program, hhead, .inl rfl⟩))⟩)
  have hobjects : Make.texts ((p.at_ r).sources.map fun source =>
      ((s.emission p).compileCommand r source t).object) =
        (p.at_ r).sources.map fun source => (rule.objectPath s.layout.buildRoot t source).text := by
    rw [Make.texts, List.map_map]
    refine List.map_congr_left fun source _ => ?_
    rw [← hrule]
    rfl
  refine ⟨program, _, hone, links_reverse horder hdisjoint, _, htarget, rfl, ?_⟩
  rw [← hobjects]
  exact linkRecipe_eq hrule hprogram hcc program _

end Prepared

/-! ## A program with a library and an external project -/

namespace LinkLine

open Locality

/-- A program that names first the external project, which its library uses as well. -/
def application : Linked where
  set := {
    rules := [
      { id := 0
        package := ""
        declaration := {
          type := .ccBinary
          name := "app"
          version := "DEFAULT"
          deps := [":zip", ":lib"]
          attributes := .cc { srcs := ["app.c"], ldflags := ["-lm"] } } },
      library 1 "lib" "lib.c" [":zip"],
      { id := 2
        package := ""
        declaration := {
          type := .externalProject
          name := "zip"
          version := "DEFAULT"
          deps := []
          attributes := .external {
            installScript := "make install", exports := ["lib/libzip.a", "include/zip.h"] } } }]
    packages := [] }
  graph := ⟨[[2, 1], [2], []]⟩
  size_eq := by decide

/-- Every pattern matches the file that it names. -/
def expand (pattern : String) (_ : Path) : Except ExpandFault (List String) :=
  .ok [pattern]

def programKnown : Resolved := known "app.c" "build/app@DEFAULT/DEBUG/app" [2, 1]

def zipKnown : Resolved where
  artifacts :=
    [(.debug, [⟨"build/zip@DEFAULT/.installed"⟩, ⟨"build/zip@DEFAULT/lib/libzip.a"⟩,
      ⟨"build/zip@DEFAULT/include/zip.h"⟩])]

theorem exists_prepared : ∃ p, Prepared.ofLinked (session.preparer expand) application = .ok p ∧
    p.linked = application ∧ p.resolved = [programKnown, libKnown [2], zipKnown] := by
  have happ : application.dependenciesInOrder 0 = .ok [2, 1] := by cbv
  have hlib : application.dependenciesInOrder 1 = .ok [2] := by cbv
  have hzip : application.dependenciesInOrder 2 = .ok [] := by cbv
  have hnames : application.set.idsByName = [0, 1, 2] :=
    RuleSet.idsByName_of_pairwise (s := application.set) (by decide +kernel)
  have hrules : application.set.rules.mapM ((session.preparer expand).prepareRule application) =
      .ok [programKnown, libKnown [2], zipKnown] := by
    refine mapM_cons_eq_ok_iff.2 ⟨_, _, ?_, mapM_cons_eq_ok_iff.2 ⟨_, _, ?_,
      mapM_cons_eq_ok_iff.2 ⟨_, _, ?_, rfl, rfl⟩, rfl⟩, rfl⟩
    · rw [Preparer.prepareRule, happ]
      rfl
    · rw [Preparer.prepareRule, show (library 1 "lib" "lib.c" [":zip"]).id = 1 from rfl, hlib]
      rfl
    · rw [Preparer.prepareRule, hzip]
      rfl
  have howner : Prepared.checkOwnership application.set
      [programKnown, libKnown [2], zipKnown] = .ok () := by
    rw [Prepared.checkOwnership, Prepared.claims, hnames]
    rfl
  obtain ⟨p, hp⟩ := Prepared.exists_ofLinked hrules howner
  obtain ⟨hlinked, -⟩ := Prepared.ofLinked_eq_ok hp
  exact ⟨p, hp, hlinked, Prepared.resolved_of_mapM hrules hp⟩

end LinkLine

namespace Prepared

open Locality LinkLine

/-- The program is linked with its library in front of that of the external project, though it
    names the external project first, and with no other files of the project. -/
theorem application_linked : ∃ p program libraries,
    ofLinked (session.preparer expand) application = .ok p ∧
    (∀ v w, v ≠ w → ((p.at_ v).artifactsFor .debug).Disjoint ((p.at_ w).artifactsFor .debug)) ∧
    (p.at_ 0).artifactsFor .debug = [program] ∧ p.Links .debug 0 libraries ∧
    ["build/lib@DEFAULT/DEBUG/liblib.a", "build/zip@DEFAULT/lib/libzip.a"].Sublist libraries ∧
    "build/zip@DEFAULT/include/zip.h" ∉ libraries := by
  obtain ⟨p, hp, hlinked, hresolved⟩ := exists_prepared
  have hlt : ∀ v, ∀ path ∈ (p.at_ v).artifactsFor .debug, v < 3 := by
    intro v path hpath
    have hv := lt_of_mem_artifactsFor hpath
    rw [hlinked] at hv
    exact hv
  have hdisjoint : ∀ v w, v ≠ w →
      ((p.at_ v).artifactsFor .debug).Disjoint ((p.at_ w).artifactsFor .debug) := by
    intro v w hne path hv hw
    have hall : ∀ v < 3, ∀ w < 3, v = w ∨
        ∀ path ∈ (p.at_ v).artifactsFor .debug, path ∉ (p.at_ w).artifactsFor .debug := by
      simp only [at_, hresolved]
      decide +kernel
    exact (hall v (hlt v path hv) w (hlt w path hw)).resolve_left hne path hv hw
  have hlib : p.linked.graph.DependsOn 0 1 := hlinked ▸ ⟨1, by decide, .refl 1⟩
  have hzip : p.linked.graph.DependsOn 1 2 := hlinked ▸ ⟨2, by decide, .refl 2⟩
  have hleaves : p.Leaves .debug 1 "build/lib@DEFAULT/DEBUG/liblib.a" := by
    refine ⟨⟨⟨"build/lib@DEFAULT/DEBUG/liblib.a"⟩, ?_, rfl⟩, "build/lib@DEFAULT/DEBUG/liblib", ?_⟩
    · rw [at_, hresolved]
      decide
    · decide
  have hleaves' : p.Leaves .debug 2 "build/zip@DEFAULT/lib/libzip.a" := by
    refine ⟨⟨⟨"build/zip@DEFAULT/lib/libzip.a"⟩, ?_, rfl⟩, "build/zip@DEFAULT/lib/libzip", ?_⟩
    · rw [at_, hresolved]
      decide
    · decide
  obtain ⟨program, libraries, hone, hlinks, -⟩ := program_linked (l := application) (r := 0)
    (by decide) hp rfl rfl rfl (List.mem_singleton_self _) hdisjoint
  refine ⟨p, program, libraries, hp, hdisjoint, hone, hlinks,
    hlinks.before 1 2 hlib hzip _ _ hleaves hleaves', fun hheader => ?_⟩
  obtain ⟨d, -, -, hending⟩ := (hlinks.mem_iff _).1 hheader
  have hfile : Make.isLibraryFile ⟨"build/zip@DEFAULT/include/zip.h"⟩ = true :=
    Make.isLibraryFile_iff.2 hending
  exact absurd hfile (by decide)

end Prepared

end Buildwright
