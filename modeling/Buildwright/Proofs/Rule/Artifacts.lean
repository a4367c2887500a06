import Buildwright.Proofs.Path.Within
import Buildwright.Proofs.Rule.Objects

/-! # Artifacts and the folders of their rules

    The folder of a rule has a quoted name, but what the rule leaves in it has the name as it is
    declared, which can lead anywhere.  A quoted name has more marks than the name, so the name
    cannot lead back to a folder that it has led out of, except for that of the build type.

    * `Rule.quotedName_notMem_exportedFile` — names do not have their own quoted name;
    * `Rule.confined_iff` — when an artifact lies inside the folder;
    * `Prepared.artifacts_confined_iff` — the artifacts of compiled rules. -/

namespace Buildwright

open Buildwright.Path

namespace Text

variable {c mark : Char} {cs : List Char}

/-- Marks stay, and more may come. -/
theorem count_le_count_replaceChar (h : c ≠ mark) (cs : List Char) :
    cs.count mark ≤ (replaceChar c [mark, mark] cs).count mark := by
  induction cs with
  | nil => exact Nat.zero_le _
  | cons x rest ih =>
      rw [replaceChar, List.flatMap_cons, List.count_append, ← replaceChar, List.count_cons]
      by_cases hx : x = c
      · rw [if_neg (by simpa [hx] using h)]
        omega
      · rw [if_neg hx, List.count_singleton]
        omega

end Text

namespace Rule

variable {r : Rule} {buildRoot : Path} {t : BuildType} {names : List Component}

/-- The name of the file that a compiled rule leaves. -/
def exportedFile (r : Rule) : String :=
  if r.type.isLibrary then "lib" ++ r.name ++ ".a" else r.name

/-- The folder of a rule for a build type. -/
def typeFolder (r : Rule) (buildRoot : Path) (t : BuildType) : Path :=
  (r.workingFolder buildRoot).join ⟨t.name⟩

/-- Where a compiled rule leaves its file for a build type. -/
def artifact (r : Rule) (buildRoot : Path) (t : BuildType) : Path :=
  (r.typeFolder buildRoot t).join ⟨r.exportedFile⟩

/-! ## Names and quoted names -/

theorem count_mark_exportedFile (r : Rule) :
    r.exportedFile.toList.count '@' = r.name.toList.count '@' := by
  rw [exportedFile]
  split_ifs
  · rw [String.toList_append, String.toList_append, List.count_append, List.count_append]
    exact Nat.zero_add _
  · rfl

/-- The quoted name has a mark in front of the version besides those of the name. -/
theorem count_mark_lt (r : Rule) :
    r.name.toList.count '@' < r.quotedName.toList.count '@' := by
  have hplain : r.name.toList.count '@' ≤ r.plainName.toList.count '@' := by
    rw [toList_plainName]
    split_ifs
    · exact Nat.le_refl _
    · rw [List.count_append, List.count_cons]
      omega
  have hmarks : '/' ≠ '@' := by decide
  have hquoted := Text.count_le_count_replaceChar hmarks r.plainName.toList
  rw [toList_quotedName, List.count_append, List.count_cons_self]
  omega

/-- What a rule leaves does not lead through the folder of the rule. -/
theorem quotedName_notMem_exportedFile (r : Rule) :
    .name r.quotedName ∉ (⟨r.exportedFile⟩ : Path).normal.components := by
  intro hmem
  have hle := count_le_of_name_mem hmem '@'
  have hlt := r.count_mark_lt
  rw [← r.count_mark_exportedFile] at hlt
  exact Nat.not_lt.2 hle hlt

/-! ## Confined artifacts -/

theorem normal_typeFolder (r : Rule) (buildRoot : Path) (t : BuildType) :
    (r.typeFolder buildRoot t).normal.components =
      buildRoot.normal.components ++ [.name r.quotedName, .name t.name] := by
  rw [components_normal, typeFolder, components_typeFolder, Normal.components_append_names,
    ← components_normal]
  exact List.forall_mem_cons.2 ⟨rfl, List.forall_mem_singleton.2 rfl⟩

/-- Whether a file that is left in a folder stays in it: its way goes along names, or it leaves
    the folder once and comes back by its name. -/
def Stays (file : Path) (folder : String) : Prop :=
  ∃ names, names ≠ [] ∧ (∀ c ∈ names, c.isName = true) ∧
    (file.normal.components = names ∨ file.normal.components = .parent :: .name folder :: names)

theorem Stays.isAbsolute {file : Path} {folder : String} (h : Stays file folder) :
    file.isAbsolute = false := by
  obtain ⟨names, -, hnames, hfile⟩ := h
  by_contra habsolute
  have hroot := root_mem_normal (Bool.not_eq_false _ ▸ habsolute)
  have hnone : Component.root ∉ names := fun hmem => Bool.false_ne_true (hnames _ hmem)
  rcases hfile with hfile | hfile
  · exact hnone (hfile ▸ hroot)
  · rw [hfile] at hroot
    simp [hnone] at hroot

/-- What stays leads to more than the folder and the directory around it. -/
theorem Stays.normal_ne {file : Path} {folder : String} (h : Stays file folder) :
    file.normal.components ≠ [] ∧ file.normal.components ≠ [.parent] := by
  obtain ⟨names, hne, hnames, hfile | hfile⟩ := h
  · refine ⟨hfile ▸ hne, fun hparent => ?_⟩
    exact Bool.false_ne_true (hnames .parent (hfile ▸ hparent ▸ List.mem_singleton_self _))
  · rw [hfile]
    exact ⟨List.cons_ne_nil _ _, fun h => List.cons_ne_nil _ _ (List.cons.inj h).2⟩

/-- An artifact lies inside the folder if and only if its file stays there. -/
theorem within_typeFolder_iff (r : Rule) (buildRoot : Path) (t : BuildType) :
    (r.artifact buildRoot t).Within (r.typeFolder buildRoot t) ↔
      Stays ⟨r.exportedFile⟩ t.name := by
  have hfolder := r.normal_typeFolder buildRoot t
  have hquoted := r.quotedName_notMem_exportedFile
  cases hfile : (⟨r.exportedFile⟩ : Path).isAbsolute with
  | true =>
      -- an absolute file lies where its own name says
      refine iff_of_false ?_ fun h => Bool.false_ne_true (h.isAbsolute.symm.trans hfile)
      rw [artifact, join_of_isAbsolute _ hfile]
      rintro ⟨names, -, -, heq⟩
      refine hquoted ?_
      rw [heq, hfolder]
      simp
  | false =>
      rw [artifact, within_join_iff hfile]
      refine exists_congr fun names => and_congr_right fun _ => and_congr_right fun _ => ?_
      exact regains_iff_of_notMem hfolder hquoted

/-- A file of one word stays if the word is a name. -/
theorem stays_word_iff {file : String} (hslash : '/' ∉ file.toList) (folder : String) :
    Stays ⟨file⟩ folder ↔ file ≠ "" ∧ file ≠ "." ∧ file ≠ ".." := by
  constructor
  · intro h
    obtain ⟨hempty, hparent⟩ := h.normal_ne
    refine ⟨?_, ?_, ?_⟩
    · rintro rfl
      exact hempty (by decide +kernel)
    · rintro rfl
      exact hempty (by decide +kernel)
    · rintro rfl
      exact hparent (by decide +kernel)
  · rintro ⟨hnil, hdot, hparent⟩
    have hword : ∀ w ∈ [file.toList], IsStep w ∧ w ≠ ['.', '.'] ∧ '/' ∉ w :=
      List.forall_mem_singleton.2 ⟨⟨mt String.toList_eq_nil_iff.1 hnil,
        fun h => hdot (String.toList_inj.1 h)⟩, fun h => hparent (String.toList_inj.1 h), hslash⟩
    have htext : ofWords [file.toList] = ⟨file⟩ := by
      rw [ofWords, List.intercalate_singleton, String.ofList_toList]
    obtain ⟨hnormal, hnames⟩ := normal_of_names hword
    have hcomponents := components_ofWords hword
    rw [htext] at hnormal hnames hcomponents
    exact ⟨_, hcomponents ▸ List.cons_ne_nil _ _, hnames, .inl (congrArg components hnormal)⟩

/-- Whether a folder confines what the recipe of an artifact touches: the artifact, which it
    removes and writes, and the directory that it creates. -/
def Confined (folder artifact : Path) : Prop :=
  artifact.Within folder ∧ (Make.directoryOf artifact).Below folder

/-- The folder confines the recipe if and only if the file stays in it. -/
theorem confined_iff (r : Rule) (buildRoot : Path) (t : BuildType) :
    Confined (r.typeFolder buildRoot t) (r.artifact buildRoot t) ↔
      Stays ⟨r.exportedFile⟩ t.name := by
  rw [← r.within_typeFolder_iff buildRoot t]
  refine ⟨And.left, fun h => ⟨h, ?_⟩⟩
  obtain ⟨dir, hdir⟩ := h.exists_parent?
  rw [Make.directoryOf, hdir]
  exact h.below_parent hdir

/-- Of the names without slashes, all stay but those of the folder and the directory around it,
    and the empty one; libraries have other names. -/
theorem stays_exportedFile_iff (hslash : '/' ∉ r.name.toList) (folder : String) :
    Stays ⟨r.exportedFile⟩ folder ↔
      r.type.isLibrary = true ∨ r.name ≠ "" ∧ r.name ≠ "." ∧ r.name ≠ ".." := by
  rw [exportedFile]
  split_ifs with hlibrary
  · refine iff_of_true ((stays_word_iff ?_ folder).2 ?_) (.inl hlibrary)
    · rw [String.toList_append, String.toList_append]
      simp [hslash]
    · have hhead : ("lib" ++ r.name ++ ".a").toList.head? = some 'l' := by
        rw [String.toList_append, String.toList_append]
        rfl
      refine ⟨?_, ?_, ?_⟩ <;> intro heq <;> rw [heq] at hhead <;> exact absurd hhead (by decide)
  · rw [stays_word_iff hslash]
    exact (or_iff_right hlibrary).symm

end Rule

namespace Prepared

variable {P : Preparer} {l : Linked} {p : Prepared} {id : RuleId} {rule : Rule} {a : CcAttributes}
  {t : BuildType}

/-- A compiled rule leaves one artifact, unless it is a library without sources. -/
theorem artifactsFor_of_cc (h : ofLinked P l = .ok p) (hrule : l.set.rules[id]? = some rule)
    (hcc : rule.cc? = some a) (ht : t ∈ P.buildTypes) :
    (p.at_ id).artifactsFor t = if rule.type.isLibrary ∧ (p.at_ id).sources = [] then []
      else [rule.artifact P.layout.buildRoot t] := by
  have hattributes : rule.declaration.attributes = .cc a := by
    rw [Rule.cc?] at hcc
    split at hcc
    · rename_i heq
      rw [heq, Option.some.inj hcc]
    · cases hcc
  rw [(found h hrule).artifactsFor_eq, if_pos ht, Preparer.artifactsOf]
  simp only [hattributes, List.isEmpty_iff]
  rw [Rule.artifact, Rule.exportedFile]
  by_cases hlibrary : rule.type.isLibrary = true
  · simp only [hlibrary, true_and]
    rfl
  · rw [if_neg hlibrary, if_neg hlibrary, if_neg fun h => hlibrary h.1]
    rfl

/-- The recipe of an artifact creates the directory of the artifact, removes the artifact if it
    is a library, and writes it. -/
theorem exists_linkRecipe (e : Emission) (id : RuleId) (t : BuildType) (artifact : Path)
    (objects : List Path) : ∃ before behind, Make.linkRecipe e id t artifact objects =
      Make.makeDirectory (Make.directoryOf artifact) ::
        (if (e.rule id).type.isLibrary then ["@rm -f " ++ Make.word artifact.text] else []) ++
          [Make.line (before ++ artifact.text :: behind)] := by
  rw [Make.linkRecipe]
  split_ifs
  · exact ⟨[e.session.toolchain.ar, "rcs"], Make.texts objects, rfl⟩
  · refine ⟨e.session.toolchain.cxx :: t.flags ++ ["-o"], ?behind, ?recipe⟩
    case recipe =>
      simp only [List.append_assoc, List.cons_append, List.nil_append]
      rfl

/-- **Which artifacts stay in the folder of their rule.** A compiled rule leaves one artifact for
    a build type, unless it is a library without sources, and the recipe creates the directory of
    the artifact, removes an old library and writes the artifact.  All of this lies inside the
    folder of the rule and the build type if and only if the file, whose name is the declared one
    as it is, leads along names, or out of the folder once and back by the name of the build type.
    So do the files of all libraries whose names have no slashes, and of all programs but `.` and
    `..`; a program that is absolute or steps up further has its artifact elsewhere. -/
theorem artifacts_confined_iff (h : ofLinked P l = .ok p) (hrule : l.set.rules[id]? = some rule)
    (hcc : rule.cc? = some a) (ht : t ∈ P.buildTypes) :
    ((p.at_ id).artifactsFor t = if rule.type.isLibrary ∧ (p.at_ id).sources = [] then []
      else [rule.artifact P.layout.buildRoot t]) ∧
    (∀ (e : Emission) (objects : List Path), e.rule id = rule → ∃ before behind,
      Make.linkRecipe e id t (rule.artifact P.layout.buildRoot t) objects =
        Make.makeDirectory (Make.directoryOf (rule.artifact P.layout.buildRoot t)) ::
          (if rule.type.isLibrary then
            ["@rm -f " ++ Make.word (rule.artifact P.layout.buildRoot t).text] else []) ++
          [Make.line (before ++ (rule.artifact P.layout.buildRoot t).text :: behind)]) ∧
    (Rule.Confined (rule.typeFolder P.layout.buildRoot t) (rule.artifact P.layout.buildRoot t) ↔
      Rule.Stays ⟨rule.exportedFile⟩ t.name) ∧
    ('/' ∉ rule.name.toList → (Rule.Stays ⟨rule.exportedFile⟩ t.name ↔
      rule.type.isLibrary = true ∨ rule.name ≠ "" ∧ rule.name ≠ "." ∧ rule.name ≠ "..")) := by
  refine ⟨artifactsFor_of_cc h hrule hcc ht, fun e objects he => ?_, rule.confined_iff _ t,
    fun hslash => Rule.stays_exportedFile_iff hslash _⟩
  rw [← he]
  exact exists_linkRecipe e id t _ objects

end Prepared

/-! ## A program that leaves its folder -/

namespace Artifacts

/-- A program with a name that steps up. -/
def climber : Rule where
  id := 0
  package := ""
  declaration := {
    type := .ccBinary
    name := "../../x"
    version := "DEFAULT"
    deps := []
    attributes := .cc {} }

def single : Linked where
  set := {
    rules := [climber]
    packages := [⟨"", ⟨"/proj/BUILD"⟩, [("../../x", 0)]⟩] }
  graph := ⟨[[]]⟩
  size_eq := by decide

def known : Resolved where
  artifacts := [(.debug, [⟨"build/..@@..@@x@DEFAULT/DEBUG/../../x"⟩])]

theorem prepareRule_climber : Objects.preparer.prepareRule single climber = .ok known := by
  have horder : single.dependenciesInOrder 0 = .ok [] := by cbv
  rw [Preparer.prepareRule, show climber.id = 0 from rfl, horder]
  rfl

end Artifacts

namespace Prepared

open Artifacts

/-- The program `../../x` is left beside the folders of all rules. -/
theorem climber_not_confined : ∃ p, ofLinked Objects.preparer single = .ok p ∧
    single.set.rules[0]? = some climber ∧ climber.cc? = some {} ∧
    BuildType.debug ∈ Objects.preparer.buildTypes ∧
    (p.at_ 0).artifactsFor .debug = [⟨"build/..@@..@@x@DEFAULT/DEBUG/../../x"⟩] ∧
    (⟨"build/..@@..@@x@DEFAULT/DEBUG/../../x"⟩ : Path).normal = ⟨"build/x"⟩ ∧
    ¬ Rule.Confined ⟨"build/..@@..@@x@DEFAULT/DEBUG"⟩
      ⟨"build/..@@..@@x@DEFAULT/DEBUG/../../x"⟩ := by
  obtain ⟨p, hp, -⟩ := exists_ofLinked_single rfl prepareRule_climber
  have hrule : single.set.rules[0]? = some climber := rfl
  have hcc : climber.cc? = some {} := rfl
  have hdebug : BuildType.debug ∈ Objects.preparer.buildTypes := List.mem_singleton_self _
  have hfile : (⟨climber.exportedFile⟩ : Path).normal.components =
      [.parent, .parent, .name "x"] := by
    decide +kernel
  obtain ⟨hartifacts, -, hconfined, -⟩ := artifacts_confined_iff hp hrule hcc hdebug
  refine ⟨p, hp, hrule, hcc, hdebug, hartifacts, by decide +kernel, fun h => ?_⟩
  obtain ⟨names, -, hnames, hnormal | hnormal⟩ := hconfined.1 h
  · exact Bool.false_ne_true (hnames .parent (hnormal ▸ hfile ▸ List.mem_cons_self ..))
  · rw [hfile] at hnormal
    exact absurd (List.cons.inj (List.cons.inj hnormal).2).1 (by decide)

end Prepared

end Buildwright
